import TableLexer.Action

/-!
# Rules and rulesets

A rule is a named table from patterns to actions. A standard rule consumes one character and
dispatches on it; a look-ahead rule tries its patterns in order. The action `otherwise` runs if no
handler applies.

The token types of a lexer are registered once, before the first rule. A rule is checked when it
is added; whether its subrules exist and whether rules can re-enter themselves without consuming
input is only known of the whole set. Cycles are searched for depth first from each name in turn;
the first one that is closed is reported as the names along it, with the first one repeated at
the end.
-/
namespace TableLexer

inductive RuleKind where
  | standard
  | lookahead
  deriving DecidableEq, Repr

def RuleKind.name : RuleKind → String
  | standard => "Standard"
  | lookahead => "Lookahead"

structure Handler where
  pattern : Pattern
  action : Action
  deriving Repr

structure Rule where
  name : String
  kind : RuleKind
  before : Option Action := none
  handlers : List Handler := []
  otherwise : Action := .unknownToken
  deriving Repr

namespace Rule

def on (r : Rule) (pattern : Pattern) (action : Action) : Rule :=
  { r with handlers := r.handlers ++ [⟨pattern, action⟩] }

def onChars (r : Rule) (chars : String) (action : Action) : Rule :=
  { r with handlers := r.handlers ++ chars.toList.map fun c => ⟨.char c, action⟩ }

def handlerFor? (r : Rule) (c : Char) : Option Handler :=
  r.handlers.find? fun h => h.pattern.singleChar? = some c

def topActions (r : Rule) : List Action :=
  r.before.toList ++ r.handlers.map Handler.action ++ [r.otherwise]

def allActions (r : Rule) : List Action := r.topActions.flatMap Action.walk

/-- The rules this rule may enter before it consumes anything. A standard rule has consumed its
character before any handler runs. -/
def unguardedSubrules (r : Rule) : List String :=
  let (names, guarded) := Action.unguardedOption false r.before
  match r.kind with
  | .standard =>
    names ++ r.handlers.flatMap (fun h => (h.action.unguarded true).1) ++
      (r.otherwise.unguarded true).1
  | .lookahead =>
    names ++ r.handlers.flatMap
        (fun h => (h.action.unguarded (guarded || !h.pattern.matchesEmpty)).1) ++
      (r.otherwise.unguarded guarded).1

/-- A rule has a name, and a standard rule dispatches on single characters. -/
def checkShape (r : Rule) : Except LexError Unit :=
  if Text.allBlank r.name then .error (.plain .blankRuleName)
  else
    match r.kind with
    | .lookahead => .ok ()
    | .standard =>
      match r.handlers.find? fun h => h.pattern.singleChar?.isNone with
      | some h => .error (.plain (.wideHandler r.name h.pattern.display))
      | none => .ok ()

end Rule
end TableLexer

namespace TableLexer.Cycle

abbrev Graph := String → List String

/-- The part of the path, newest name first, that leads from `name` back to itself. -/
def closing (name : String) (path : List String) : List String :=
  (path.reverse.dropWhile (· != name)) ++ [name]

/-- Visits a name and what can be reached from it. `path` holds the names being visited, newest
first, and `done` those that lead to no cycle; the answer is a cycle or the new `done`. The
path cannot be longer than `depth`, the number of names there are. -/
def visit (graph : Graph) : (depth : Nat) → (path done : List String) → String →
    Except (List String) (List String)
  | 0, _, done, _ => .ok done
  | depth + 1, path, done, name =>
    if done.contains name then .ok done
    else if path.contains name then .error (closing name path)
    else
      match (graph name).foldlM (visit graph depth (name :: path)) done with
      | .ok done => .ok (name :: done)
      | .error cycle => .error cycle

def find? (graph : Graph) (names : List String) : Option (List String) :=
  match names.foldlM (visit graph (names.length + 1) []) [] with
  | .ok _ => none
  | .error cycle => some cycle

end TableLexer.Cycle

namespace TableLexer

/-- Types and rules are kept in order, rules by their names. -/
structure Ruleset where
  types : Option (List (TokenType × String)) := none
  rules : List Rule := []
  deriving Repr

namespace Ruleset

def insertBy {α : Type} (before : α → α → Bool) (x : α) : List α → List α
  | [] => [x]
  | y :: ys => if before x y then x :: y :: ys else y :: insertBy before x ys

def registry (sorted : List (TokenType × String)) :
    List (TokenType × String) → Except LexError (List (TokenType × String))
  | [] => .ok sorted
  | (type, description) :: rest =>
    if sorted.any (·.1 = type) then .error (.plain (.secondType type))
    else registry (insertBy (fun a b => a.1.before b.1) (type, description) sorted) rest

def setTypes (s : Ruleset) (types : List (TokenType × String)) : Except LexError Ruleset := do
  if s.types.isSome then throw (.plain .typesAlreadySet)
  return { s with types := some (← registry [] types) }

def hasType (s : Ruleset) (type : TokenType) : Bool :=
  (s.types.getD []).any (·.1 = type)

def rule? (s : Ruleset) (name : String) : Option Rule := s.rules.find? (·.name = name)

/-- The types an action emits or compares with. -/
def emitted : Action → List TokenType
  | .enqueue type => [type]
  | .retype old new => [old, new]
  | _ => []

/-- Every type a rule uses must be registered. -/
def checkRule (s : Ruleset) (r : Rule) : Except LexError Unit :=
  match (r.allActions.flatMap emitted).find? fun type => !s.hasType type with
  | some type => .error (.plain (.unregisteredType r.name type))
  | none => .ok ()

def addRule (s : Ruleset) (r : Rule) : Except LexError Ruleset := do
  if s.types.isNone then throw (.plain (.typesNotSet r.name))
  r.checkShape
  if (s.rule? r.name).isSome then throw (.plain (.secondRule r.name))
  s.checkRule r
  return { s with rules := insertBy (fun a b => decide (a.name < b.name)) r s.rules }

def subruleNames (r : Rule) : List String :=
  r.allActions.filterMap fun
    | .subrule name => some name
    | _ => none

def dangling? (s : Ruleset) : Option (String × String) :=
  s.rules.findSome? fun r =>
    ((subruleNames r).find? fun name => (s.rule? name).isNone).map fun name => (r.name, name)

def entryGraph (s : Ruleset) : Cycle.Graph := fun name =>
  match s.rule? name with
  | some r => r.unguardedSubrules
  | none => []

def checkCycles (s : Ruleset) : Except LexError Unit :=
  match Cycle.find? s.entryGraph (s.rules.map Rule.name) with
  | some cycle => .error (.plain (.cycle cycle))
  | none => .ok ()

/-- The checks that need the whole set. -/
def validate (s : Ruleset) : Except LexError Unit :=
  match s.dangling? with
  | some (rule, subrule) => .error (.plain (.danglingSubrule rule subrule))
  | none => s.checkCycles

def declaration (s : Ruleset) : String :=
  "# Declare the tokens (terminal symbols) registered in the lexer.\n" ++
  "# Remark special characters are returned 'as is'\n" ++
  "token\n" ++
  String.join ((s.types.getD []).map fun (type, description) =>
    match type with
    | .symbol name => "\t" ++ name ++ "    # " ++ description ++ "\n"
    | .char _ => "")

end Ruleset
end TableLexer
