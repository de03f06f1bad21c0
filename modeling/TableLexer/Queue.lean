import TableLexer.Error

/-!
# The token queue

Entries wait for the parser in two lists: `front` in the order of delivery, and after it
`back`, newest first. New entries join at the back; one that must be delivered next goes to
the front. Tokens pass through the transform of their type when they join.

`toList` is the queue as the parser will see it, and each operation is described by what it
does to that list.

A transform changes every token of one type on its way into the queue, or drops it.
-/
namespace TableLexer

structure Transform where
  type : TokenType
  apply : Token → Option (TokenType × Token)

namespace Transform

def make (type : TokenType) (apply : Token → Option (TokenType × Token)) :
    Except LexError Transform :=
  if type.isBlankSymbol then .error (.plain .blankTransform) else .ok ⟨type, apply⟩

def discard (type : TokenType) : Except LexError Transform := make type fun _ => none

def retype (type newType : TokenType) : Except LexError Transform :=
  make type fun t => some (newType, t)

/-- Keeps the type and replaces the value, or drops tokens whose lexeme has none. -/
def reading (type : TokenType) (read? : String → Option Value) : Except LexError Transform :=
  make type fun t => (read? t.lexeme).map fun value => (type, { t with value })

def wholeNumber (type : TokenType) : Except LexError Transform :=
  reading type fun lexeme => (Number.readInt64? lexeme).map .int

def floatingPoint (type : TokenType) : Except LexError Transform :=
  reading type fun lexeme => (Number.readFloat? lexeme).map .float

def constant (type : TokenType) (value : Value) : Except LexError Transform :=
  reading type fun _ => some value

def dropLexeme (type : TokenType) (lexeme : String) : Except LexError Transform :=
  make type fun t => if t.lexeme = lexeme then none else some (type, t)

def describe (t : Transform) : String :=
  "TransformRule \x7b token_type: " ++ t.type.describe ++ ", transform: \"<function>\" \x7d"

end Transform

structure Queue where
  front : List Entry
  back : List Entry
  transforms : List Transform

namespace Queue

def empty : Queue := ⟨[], [], []⟩

/-- The entries in the order of delivery. -/
def toList (q : Queue) : List Entry := q.front ++ q.back.reverse

def isEmpty (q : Queue) : Bool := q.front.isEmpty && q.back.isEmpty

def length (q : Queue) : Nat := q.front.length + q.back.length

def clear (q : Queue) : Queue := { q with front := [], back := [] }

def transform? (transforms : List Transform) (type : TokenType) : Option Transform :=
  transforms.find? fun t => t.type = type

/-- The first transform whose type an earlier one has already. -/
def secondTransform? (seen : List Transform) : List Transform → Option TokenType
  | [] => none
  | t :: rest =>
    if (transform? seen t.type).isSome then some t.type else secondTransform? (t :: seen) rest

def withTransforms (transforms : List Transform) : Except LexError Queue :=
  match secondTransform? [] transforms with
  | some type => .error (.plain (.secondTransform type))
  | none => .ok ⟨[], [], transforms⟩

def checkEntry (entry : Entry) : Except LexError Entry :=
  match entry with
  | .token type token =>
    if type.isBlankSymbol then .error (.located .blankEntry token.position) else .ok entry
  | _ => .ok entry

/-- What becomes of an entry that joins the queue; nothing if it is dropped. -/
def transformed (q : Queue) (entry : Entry) : Except LexError (Option Entry) := do
  match ← checkEntry entry with
  | .token type token =>
    match transform? q.transforms type with
    | none => return some (.token type token)
    | some t =>
      match t.apply token with
      | none => return none
      | some (newType, newToken) => return some (← checkEntry (.token newType newToken))
  | other => return some other

def last? (q : Queue) : Option Entry :=
  match q.back with
  | e :: _ => some e
  | [] => q.front.getLast?

/-- Changes the entry at the end of the queue in place. -/
def mapLast (q : Queue) (f : Entry → Entry) : Queue :=
  match q.back with
  | e :: back => { q with back := f e :: back }
  | [] =>
    match q.front.getLast? with
    | some e => { q with front := q.front.dropLast ++ [f e] }
    | none => q

end Queue

/-- Programs over a queue. A program that fails keeps the queue as it was then. -/
abbrev QueueM := EStateM LexError Queue

namespace QueueM

def enqueue (entry : Entry) : QueueM (Option Entry) := do
  let some e ← liftExcept ((← get).transformed entry) | return none
  modify fun q => { q with back := e :: q.back }
  return some e

def pushAhead (entry : Entry) : QueueM (Option Entry) := do
  let some e ← liftExcept ((← get).transformed entry) | return none
  modify fun q => { q with front := e :: q.front }
  return some e

def dequeue : QueueM Entry := do
  let q ← get
  match q.front with
  | e :: front => do set { q with front }; return e
  | [] =>
    match q.back.reverse with
    | e :: front => do set { q with front, back := [] }; return e
    | [] => throw (.plain .emptyQueue)

/-- What a program gives on a queue, with the queue it leaves unless it fails. -/
def on {α : Type} (m : QueueM α) (q : Queue) : Except LexError (α × Queue) :=
  match m q with
  | .ok a q => .ok (a, q)
  | .error e _ => .error e

end QueueM

namespace Queue

def enqueue (q : Queue) (entry : Entry) : Except LexError (Option Entry × Queue) :=
  (QueueM.enqueue entry).on q

def pushAhead (q : Queue) (entry : Entry) : Except LexError (Option Entry × Queue) :=
  (QueueM.pushAhead entry).on q

def dequeue (q : Queue) : Except LexError (Entry × Queue) := QueueM.dequeue.on q

@[simp] theorem toList_clear (q : Queue) : q.clear.toList = [] := rfl

@[simp] theorem length_toList (q : Queue) : q.toList.length = q.length := by
  simp [toList, length]

theorem isEmpty_iff (q : Queue) : q.isEmpty = true ↔ q.toList = [] := by
  simp [isEmpty, toList]

theorem last?_eq (q : Queue) : q.last? = q.toList.getLast? := by
  cases hb : q.back with
  | nil => simp [last?, toList, hb]
  | cons e back => simp [last?, toList, hb]

theorem toList_mapLast (q : Queue) (f : Entry → Entry) :
    (q.mapLast f).toList = q.toList.dropLast ++ (q.last?.map f).toList := by
  unfold mapLast last?
  cases hb : q.back with
  | cons e back => simp [toList, hb, ← List.append_assoc]
  | nil =>
    cases hf : q.front.getLast? with
    | none => simp_all [toList]
    | some e => simp [toList, hb]

end Queue

def Entry.retype (type : TokenType) : Entry → Entry
  | .token _ t => .token type t
  | other => other

def Entry.retypeFrom (old new : TokenType) : Entry → Entry
  | .token type t => .token (if type = old then new else type) t
  | other => other

end TableLexer
