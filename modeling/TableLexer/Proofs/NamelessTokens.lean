import Mathlib.Algebra.Order.Ring.Int
import TableLexer.Proofs.Counters
import TableLexer.Proofs.Lexer.Vetted

/-!
# Tokens without a name

The queue refuses a token whose type is the symbol with the empty name, both before and after the
transform of its type. A token that waits in the queue can be retyped, and that is not checked. So
the nameless tokens among those that wait and those that were delivered are the ones that steps of
retyping have made, less the ones that they have named again: the log of the steps that were made
accounts for each of them.
-/
namespace TableLexer

def Entry.nameless (e : Entry) : Bool := e.type?.any TokenType.isBlankSymbol

def namelessCount (entries : List Entry) : Nat := entries.countP Entry.nameless

@[simp] theorem namelessCount_nil : namelessCount [] = 0 := rfl

@[simp] theorem namelessCount_append (xs ys : List Entry) :
    namelessCount (xs ++ ys) = namelessCount xs + namelessCount ys := List.countP_append

theorem namelessCount_cons (e : Entry) (xs : List Entry) :
    namelessCount (e :: xs) = namelessCount [e] + namelessCount xs := namelessCount_append [e] xs

theorem namelessCount_token (type : TokenType) (token : Token) :
    namelessCount [.token type token] = type.isBlankSymbol.toNat := by
  cases h : type.isBlankSymbol <;> simp [namelessCount, Entry.nameless, Entry.type?, h]

theorem isBlankSymbol_iff {type : TokenType} : type.isBlankSymbol = true ↔ type = .symbol "" := by
  cases type <;> simp [TokenType.isBlankSymbol]

namespace Queue

theorem transformed_named {q : Queue} {type : TokenType} {token : Token} {reply : Option Entry}
    (h : q.transformed (.token type token) = .ok reply) : namelessCount reply.toList = 0 := by
  rw [transformed_token] at h
  split at h
  · cases h
  · next hname =>
    split at h
    · cases h
      simpa [namelessCount_token] using hname
    · split at h
      · cases h
        rfl
      · split at h
        · cases h
        · next hmade =>
          cases h
          simpa [namelessCount_token] using hmade

theorem enqueue_named {q r : Queue} {type : TokenType} {token : Token} {reply : Option Entry}
    (h : q.enqueue (.token type token) = .ok (reply, r)) :
    namelessCount r.toList = namelessCount q.toList := by
  obtain ⟨ht, hl, -⟩ := enqueue_eq_ok h
  rw [hl, namelessCount_append, transformed_named ht, Nat.add_zero]

theorem pushAhead_named {q r : Queue} {type : TokenType} {token : Token} {reply : Option Entry}
    (h : q.pushAhead (.token type token) = .ok (reply, r)) :
    namelessCount r.toList = namelessCount q.toList := by
  obtain ⟨ht, hl, -⟩ := pushAhead_eq_ok h
  rw [hl, namelessCount_append, transformed_named ht, Nat.zero_add]

end Queue

namespace Lexer

variable {l l' : Lexer}

def namelessWaiting (l : Lexer) : Int := namelessCount l.queue.toList

/-- How many nameless tokens more there are after a step. -/
def Step.unnames : Step → Lexer → Int
  | .retype old new, l =>
    if l.queue.last?.bind Entry.type? = some old then
      (new.isBlankSymbol.toNat : Int) - old.isBlankSymbol.toNat
    else 0
  | _, _ => 0

def unnamed (log : List (Step × Lexer)) : Int := (log.map fun entry => entry.1.unnames entry.2).sum

@[simp] theorem unnamed_nil : unnamed [] = 0 := rfl

theorem unnamed_cons (s : Step) (l : Lexer) (log : List (Step × Lexer)) :
    unnamed ((s, l) :: log) = s.unnames l + unnamed log := rfl

theorem unnamed_append (xs ys : List (Step × Lexer)) :
    unnamed (xs ++ ys) = unnamed xs + unnamed ys := by
  simp [unnamed]

/-- The steps that are made, each with the lexer it is made on, up to the first that fails. -/
def made : List Step → Lexer → List (Step × Lexer)
  | [], _ => []
  | s :: rest, l =>
    (s, l) :: match s.run l with
      | .ok _ l' => made rest l'
      | .error _ _ => []

def fillMade (n : Nat) (l : Lexer) : List (Step × Lexer) :=
  match Engine.scanLayout l.engine with
  | .ok none engine => made ({ l with engine }.modeSteps n) { l with engine }.counted
  | _ => []

def queueMade (n : Nat) : (rounds : Nat) → Lexer → List (Step × Lexer)
  | 0, _ => []
  | rounds + 1, l =>
    if l.queue.isEmpty then
      fillMade n l ++ match fillStep n l with
        | .ok _ l' => queueMade n rounds l'
        | .error _ _ => []
    else []

def callMade (n : Nat) (l : Lexer) : List (Step × Lexer) :=
  if l.queue.isEmpty ∧ (l.engine.recognition = .ready ∨ l.engine.recognition = .recognized) then
    queueMade n n l
  else []

/-- The steps made in a history of requests. The log starts anew with every input that is
accepted. -/
def logOf (l : Lexer) (log : List (Step × Lexer)) : List Request → List (Step × Lexer)
  | [] => log
  | .input text :: rest =>
    (l.served (.input text)).logOf (if l.engine.recognition = .tokenizing then log else []) rest
  | .entry n :: rest => (l.served (.entry n)).logOf (log ++ callMade n l) rest

theorem namelessWaiting_same (h : SameBooks l l') : l'.namelessWaiting = l.namelessWaiting := by
  rw [namelessWaiting, namelessWaiting, h.queue]

theorem namelessWaiting_endQueued (l : Lexer) :
    l.endQueued.namelessWaiting = l.namelessWaiting := by
  rw [namelessWaiting, endQueued_toList, namelessCount_append]
  rfl

theorem namelessWaiting_errorQueued (e : LexError) (l : Lexer) :
    (l.errorQueued e).namelessWaiting = l.namelessWaiting := by
  rw [namelessWaiting, errorQueued_toList, namelessCount_append]
  rfl

theorem namelessWaiting_complained (e : LexError) (captured : Bool) (l : Lexer) :
    (l.complained e captured).namelessWaiting = l.namelessWaiting := by
  cases captured with
  | true => rfl
  | false => exact namelessWaiting_errorQueued e l

theorem enqueueToken_named (type : TokenType) (l : Lexer) :
    (Program.final (enqueueToken type l)).namelessWaiting = l.namelessWaiting := by
  rw [enqueueToken_eq]
  split
  · rfl
  · dsimp only
    split
    · next hq => exact congrArg Nat.cast (Queue.enqueue_named hq)
    · rfl

/-- Retyping reaches the last entry only, and only a token of the type it is from. -/
theorem retype_unnames (old new : TokenType) (l : Lexer) :
    (namelessCount (l.queue.mapLast (Entry.retypeFrom old new)).toList : Int) =
      l.namelessWaiting + (Step.retype old new).unnames l := by
  rw [Queue.toList_mapLast, Step.unnames, namelessWaiting, Queue.last?_eq]
  rcases List.eq_nil_or_concat l.queue.toList with hq | ⟨before, last, hq⟩
  · simp [hq]
  · rw [hq, List.concat_eq_append]
    cases last with
    | endOfStream | error => simp [Entry.retypeFrom, Entry.type?]
    | token type token =>
      by_cases ht : type = old
      · subst ht
        simp [Entry.retypeFrom, Entry.type?, namelessCount_token]
      · simp [Entry.retypeFrom, Entry.type?, ht]

theorem Step.run_unnames (s : Step) (l : Lexer) :
    (Program.final (s.run l)).namelessWaiting = l.namelessWaiting + s.unnames l := by
  have quiet : ∀ {b : Lexer}, SameBooks l b → b.namelessWaiting = l.namelessWaiting + 0 := by
    intro b hb
    rw [Int.add_zero]
    exact namelessWaiting_same hb
  cases s with
  | enqueue type =>
    rw [Step.run_enqueue, final_ending, enqueueToken_named]
    exact (Int.add_zero _).symm
  | nextChar =>
    rw [Step.run_nextChar, final_ending]
    exact quiet (onEngine_books _ l)
  | scan p =>
    rw [Step.run_scan, final_ending]
    exact quiet (scanToken_books p l)
  | unknownToken =>
    rw [Step.run_unknownToken, final_ending]
    exact quiet (unknownToken_books l)
  | putBack => exact quiet (onEngine_books _ l)
  | message name args =>
    rw [Step.run_message, final_ending]
    exact quiet (builtIn_books name args l)
  | clear | halt => exact quiet ⟨rfl, rfl⟩
  | retype old new => exact retype_unnames old new l

theorem perform_unnames (steps : List Step) (l : Lexer) :
    (Program.final (perform steps l)).namelessWaiting =
      l.namelessWaiting + unnamed (made steps l) := by
  induction steps generalizing l with
  | nil => exact (Int.add_zero _).symm
  | cons s rest ih =>
    have hs := s.run_unnames l
    rw [made, unnamed_cons, perform, Program.bind_apply]
    cases hr : s.run l with
    | ok _ l' =>
      rw [hr] at hs
      dsimp only [Program.final_ok] at hs ⊢
      rw [ih, hs, Int.add_assoc]
    | error stop l' =>
      rw [hr] at hs
      rw [unnamed_nil, Int.add_zero]
      exact hs

theorem settle_named (rule : String) (start : Mark) (captured : Bool) (l : Lexer) :
    (Program.final (settle rule start captured l)).namelessWaiting = l.namelessWaiting := by
  rw [settle_eq]
  split
  · rfl
  · rfl
  · exact namelessWaiting_endQueued l
  · exact (namelessWaiting_endQueued _).trans (namelessWaiting_complained _ captured l)
  · split
    · exact (namelessWaiting_same (skipChar_books _)).trans
        (namelessWaiting_complained _ captured l)
    · rfl
  · split
    · exact (namelessWaiting_same (skipChar_books _)).trans
        (namelessWaiting_complained _ captured l)
    · rfl
  · rfl

theorem applyModeRule_unnames (hops : l.operations = []) (n : Nat) :
    (Program.final (applyModeRule n l)).namelessWaiting =
      l.namelessWaiting + unnamed (made (l.modeSteps n) l.counted) := by
  rw [applyModeRule_eq, modeSteps]
  cases l.options.ruleFor? l.modes.current with
  | none => exact (Int.add_zero _).symm
  | some name =>
    dsimp only [Option.bind_some]
    cases l.ruleset.rule? name with
    | none => exact (Int.add_zero _).symm
    | some r =>
      have hrun := perform_unnames (r.steps (respondSteps n) l.counted) l.counted
      rw [← Rule.run_eq_perform (respond_answers n) r l.counted hops, final_ending] at hrun
      have hcap := capturing_relates (R := fun _ b => b.namelessWaiting =
          l.namelessWaiting + unnamed (made (r.steps (respondSteps n) l.counted) l.counted)) hrun
        fun e b _ hb => (namelessWaiting_errorQueued e b).trans hb
      dsimp only
      cases hc : capturing (r.run (respond n)) l.counted with
      | error stop l₁ =>
        rw [hc] at hcap
        exact hcap
      | ok captured l₁ =>
        rw [hc] at hcap
        exact (settle_named name l.engine.toMark captured l₁).trans hcap

theorem enqueueIndent_named (hr : l.engine.recognition = .recognized) :
    (Program.final (enqueueIndent l)).namelessWaiting = l.namelessWaiting := by
  rw [enqueueIndent_eq hr]
  split
  · next hq => exact congrArg Nat.cast (Queue.enqueue_named hq)
  · rfl

theorem enqueueLineEnd_named (l : Lexer) :
    (Program.final (enqueueLineEnd l)).namelessWaiting = l.namelessWaiting := by
  rw [enqueueLineEnd_eq]
  split
  · split
    · next hq => exact congrArg Nat.cast (Queue.pushAhead_named hq)
    · rfl
  · rfl

theorem fillStep_unnames (hops : l.operations = []) (n : Nat) :
    (Program.final (fillStep n l)).namelessWaiting =
      l.namelessWaiting + unnamed (fillMade n l) := by
  by_cases hs : l.engine.Scannable
  · obtain ⟨o, e, hlay⟩ := Engine.scanLayout_total hs
    have hlaid := (Engine.scanLayout_eq_ok_iff.mp hlay).2
    rw [fillStep_eq n hlay, fillMade, hlay]
    cases o with
    | none => exact applyModeRule_unnames (l := { l with engine := e }) hops n
    | some outcome =>
      dsimp only
      rw [unnamed_nil, Int.add_zero]
      cases outcome with
      | indentation =>
        exact enqueueIndent_named (l := { l with engine := e }) hlaid.indentation_recognized
      | lineEnd => exact enqueueLineEnd_named { l with engine := e }
      | endOfStream => exact namelessWaiting_endQueued { l with engine := e }
      | token => cases hlaid
  · obtain ⟨fault, -, hf⟩ := fillStep_refuses n hs
    obtain ⟨fault', -, hlay⟩ := Engine.scanLayout_refuses hs
    rw [hf, fillMade, hlay]
    exact (Int.add_zero _).symm

theorem fillQueue_unnames (hops : l.operations = []) (n rounds : Nat) :
    (Program.final (fillQueue n rounds l)).namelessWaiting =
      l.namelessWaiting + unnamed (queueMade n rounds l) := by
  induction rounds generalizing l with
  | zero => exact (Int.add_zero _).symm
  | succ rounds ih =>
    by_cases hq : l.queue.toList = []
    · have hfill := fillStep_unnames hops n
      have hframe := fillStep_frame n hops
      rw [queueMade, if_pos ((Queue.isEmpty_iff _).mpr hq), fillQueue_empty hq, unnamed_append,
        ← Int.add_assoc, ← hfill]
      cases hstep : fillStep n l with
      | ok _ b =>
        rw [hstep] at hframe
        exact ih (hframe.operations.trans hops)
      | error stop b => exact (Int.add_zero _).symm
    · rw [queueMade, if_neg (by rwa [Queue.isEmpty_iff]), fillQueue_full hq n (by omega)]
      exact (Int.add_zero _).symm

theorem dequeue_unnames (l : Lexer) :
    namelessCount (entries [answer (onQueue QueueM.dequeue l)]) +
      (Program.final (onQueue QueueM.dequeue l)).namelessWaiting = l.namelessWaiting := by
  rw [onQueue_dequeue]
  cases hq : l.queue.dequeue with
  | ok r =>
    have hl := (Queue.dequeue_eq_ok hq).1
    simp only [namelessWaiting, hl, namelessCount_cons r.1 r.2.toList]
    push_cast
    rfl
  | error fault => simp [answer, entries_error, namelessWaiting]

/-- A call for the next entry, whether it succeeds or not. -/
theorem nextToken_unnames (hops : l.operations = []) (n : Nat) :
    namelessCount (entries [answer (nextToken n l)]) +
        (Program.final (nextToken n l)).namelessWaiting =
      l.namelessWaiting + unnamed (callMade n l) := by
  rcases nextToken_cases n l with ⟨he, hr, hnext⟩ | ⟨hidle, hnext⟩
  · have hfill := fillQueue_unnames hops n n
    rw [callMade, if_pos ⟨he, hr⟩, ← hfill, hnext]
    cases fillQueue n n l with
    | ok _ b => exact dequeue_unnames b
    | error stop b => simp [answer, entries_error]
  · rw [callMade, if_neg hidle, unnamed_nil, Int.add_zero]
    rcases hnext with hnext | ⟨stop, hnext⟩
    · rw [hnext]
      exact dequeue_unnames l
    · simp [hnext, answer, entries_error]

/-- By induction on the history, from any entries delivered and steps made before it. -/
theorem driven_unnames (hops : l.operations = []) (history : List Request) {ledger : Ledger}
    {log : List (Step × Lexer)}
    (h : namelessCount ledger.delivered + l.namelessWaiting = unnamed log) :
    namelessCount (l.ledgerOf ledger history).delivered + (l.driven history).namelessWaiting =
      unnamed (l.logOf log history) := by
  induction history generalizing l ledger log with
  | nil => exact h
  | cons r history ih =>
    have hframe := (served_make hops r).operations.trans hops
    cases r with
    | entry n =>
      rw [ledgerOf, Lexer.driven, logOf]
      apply ih hframe
      have hcall := nextToken_unnames hops n
      rw [Ledger.called, unnamed_append, ← h, served, namelessCount_append]
      push_cast
      omega
    | input text =>
      rw [ledgerOf, Lexer.driven, logOf]
      apply ih hframe
      rw [served, setInput_eq]
      split
      · exact h
      · rfl

end Lexer

def Action.Unnames : Action → Prop
  | .retype _ new => new = .symbol ""
  | _ => False

def Ruleset.NeverUnnames (rs : Ruleset) : Prop :=
  ∀ r ∈ rs.rules, ∀ a ∈ r.allActions, ¬ a.Unnames

/-- The empty name has to be registered before a rule can retype to it. -/
theorem Ruleset.Typed.neverUnnames {rs : Ruleset} (h : rs.Typed)
    (hname : rs.hasType (.symbol "") = false) : rs.NeverUnnames := by
  intro r hr a ha hun
  cases a with
  | retype old new =>
    obtain rfl : new = .symbol "" := hun
    have hreg := h.registered r hr _ ha (.symbol "") (by simp [emitted])
    simp [hname] at hreg
  | _ => exact hun

namespace Lexer

variable {l : Lexer}

theorem neverUnnames_allows {rs : Ruleset} (h : rs.NeverUnnames) :
    rs.Allows fun s => ∀ l, s.unnames l ≤ 0 := by
  refine ⟨fun l => le_rfl, fun p l => le_rfl, fun stop l => le_rfl, ?_⟩
  intro r hr a ha s hs l
  have hkept := h r hr a ha
  cases a with
  | retype old new =>
    obtain rfl : s = .retype old new := by simpa [Action.own] using hs
    have hnew : new.isBlankSymbol = false := by
      rw [Bool.eq_false_iff, ne_eq, isBlankSymbol_iff]
      exact hkept
    rw [Step.unnames, hnew]
    split
    · simp
    · exact le_rfl
  | enqueue | send | changeState | patterns | putBack | clear =>
    rw [Action.own, List.mem_singleton] at hs
    subst hs
    exact le_rfl
  | subrule | onLexeme | onScan | sequence => cases hs

theorem made_unnames_nonpos {steps : List Step} (h : ∀ s ∈ steps, ∀ l, s.unnames l ≤ 0)
    (l : Lexer) : unnamed (made steps l) ≤ 0 := by
  induction steps generalizing l with
  | nil => exact le_rfl
  | cons s rest ih =>
    obtain ⟨hs, hrest⟩ := List.forall_mem_cons.mp h
    rw [made, unnamed_cons]
    cases s.run l with
    | ok _ l' => exact add_nonpos (hs l) (ih hrest l')
    | error stop l' => exact add_nonpos (hs l) le_rfl

theorem fillMade_unnames_nonpos (h : l.ruleset.NeverUnnames) (n : Nat) :
    unnamed (fillMade n l) ≤ 0 := by
  unfold fillMade
  split
  · next engine _ =>
    refine made_unnames_nonpos ?_ _
    unfold modeSteps
    split
    · next r hr =>
      obtain ⟨name, -, hname⟩ := Option.bind_eq_some_iff.mp hr
      exact (neverUnnames_allows h).ruleSteps (Ruleset.mem_of_rule? hname) n rfl
    · simp
  · exact le_rfl

theorem queueMade_unnames_nonpos (h : l.ruleset.NeverUnnames) (hops : l.operations = [])
    (n rounds : Nat) : unnamed (queueMade n rounds l) ≤ 0 := by
  induction rounds generalizing l with
  | zero => exact le_rfl
  | succ rounds ih =>
    have hframe := fillStep_frame n hops
    rw [queueMade]
    split
    · rw [unnamed_append]
      refine add_nonpos (fillMade_unnames_nonpos h n) ?_
      cases hstep : fillStep n l with
      | ok _ b =>
        rw [hstep] at hframe
        exact ih (hframe.ruleset ▸ h) (hframe.operations.trans hops)
      | error stop b => exact le_rfl
    · exact le_rfl

theorem logOf_unnames_nonpos (h : l.ruleset.NeverUnnames) (hops : l.operations = [])
    (history : List Request) {log : List (Step × Lexer)} (hlog : unnamed log ≤ 0) :
    unnamed (l.logOf log history) ≤ 0 := by
  induction history generalizing l log with
  | nil => exact hlog
  | cons r history ih =>
    have hmake := served_make hops r
    have h' : (l.served r).ruleset.NeverUnnames := hmake.ruleset ▸ h
    cases r with
    | entry n =>
      refine ih h' (hmake.operations.trans hops) ?_
      rw [unnamed_append]
      refine add_nonpos hlog ?_
      unfold callMade
      split
      · exact queueMade_unnames_nonpos h hops n n
      · exact le_rfl
    | input text =>
      refine ih h' (hmake.operations.trans hops) ?_
      split
      · exact hlog
      · exact le_rfl

/-- Nameless tokens come of retyping and of nothing else. For a lexer without registered operations
and any history of requests, the tokens without a name among the entries delivered since the last
input and those still in the queue are as many as steps of retyping have unnamed, less those they
have named again. So none is delivered if no rule retypes to the empty name, and a rule set that was
built can only do that if the empty name is among its registered types. -/
theorem nameless_tokens_retyped {calls : List Ruleset.Definition} {options : Options} {l₀ : Lexer}
    (hnew : new (Ruleset.build calls) options = .ok l₀) :
    (∀ history, (namelessCount ((l₀.ledgerOf {} history).delivered ++
        (l₀.driven history).queue.toList) : Int) = unnamed (l₀.logOf [] history)) ∧
    ((Ruleset.build calls).NeverUnnames → ∀ history,
      ∀ e ∈ (l₀.ledgerOf {} history).delivered ++ (l₀.driven history).queue.toList,
        e.nameless = false) ∧
    ((Ruleset.build calls).hasType (.symbol "") = false →
      (Ruleset.build calls).NeverUnnames) := by
  obtain ⟨hops, hset, hnone⟩ : l₀.operations = [] ∧ l₀.ruleset = Ruleset.build calls ∧
      l₀.namelessWaiting = 0 := by
    obtain ⟨-, -, -, -, rfl⟩ := new_eq_ok_iff.mp hnew
    exact ⟨rfl, rfl, rfl⟩
  have hcount : ∀ history, (namelessCount ((l₀.ledgerOf {} history).delivered ++
      (l₀.driven history).queue.toList) : Int) = unnamed (l₀.logOf [] history) := by
    intro history
    have hstart : namelessCount ({} : Ledger).delivered + l₀.namelessWaiting = unnamed [] := by
      rw [hnone]
      rfl
    rw [namelessCount_append, Nat.cast_add]
    exact driven_unnames hops history hstart
  refine ⟨hcount, ?_, (Ruleset.build_typed calls).neverUnnames⟩
  intro hkept history e he
  have hlog : unnamed (l₀.logOf [] history) ≤ 0 :=
    logOf_unnames_nonpos (hset ▸ hkept) hops history le_rfl
  have hzero : namelessCount ((l₀.ledgerOf {} history).delivered ++
      (l₀.driven history).queue.toList) = 0 := by
    have := hcount history
    omega
  simpa using List.countP_eq_zero.mp hzero e he

def unnamingCalls : List Ruleset.Definition :=
  [.types [(.symbol "A", "a letter"), (.symbol "", "no name")],
    .rule { name := "main", kind := .lookahead
            handlers := [⟨.char 'a',
              .sequence [.enqueue (.symbol "A"), .retype (.symbol "A") (.symbol "")]⟩] }]

def unnamingLexer : Lexer :=
  { engine := .new ({} : Options).engineConfig
    queue := ⟨[], [], []⟩
    ruleset := .build unnamingCalls
    options := {} }

/-- The checks accept the rules, and a token without a name is delivered, made by one step of
retyping. -/
theorem nameless_token_delivered :
    let history : List Request := [.input "a", .entry 9]
    new (.build unnamingCalls) {} = .ok unnamingLexer ∧
      (unnamingLexer.ledgerOf {} history).delivered.map Entry.type? = [some (.symbol "")] ∧
      namelessCount (unnamingLexer.ledgerOf {} history).delivered = 1 ∧
      unnamed (unnamingLexer.logOf [] history) = 1 := by
  have hnew : new (.build unnamingCalls) {} = .ok unnamingLexer := rfl
  have hcount := (nameless_tokens_retyped hnew).1 [.input "a", .entry 9]
  have hdelivered :
      namelessCount (unnamingLexer.ledgerOf {} [.input "a", .entry 9]).delivered = 1 := by
    decide +kernel
  have hqueue : (unnamingLexer.driven [.input "a", .entry 9]).queue.toList.length = 0 := by
    decide +kernel
  rw [List.length_eq_zero_iff.mp hqueue, List.append_nil, hdelivered] at hcount
  exact ⟨hnew, by decide +kernel, hdelivered, hcount.symm⟩

end Lexer
end TableLexer
