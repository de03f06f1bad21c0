import TableLexer.Proofs.Lexer.Driver

/-!
# Errors of missing subrules

The error that a subrule does not exist is raised where the subrule is called for and nowhere
else: no operation of the engine, no queueing, no message and no part of the driver raises it.
-/
namespace TableLexer

namespace Engine

theorem nextChar_blames {e e' : Engine} {fault : LexError} (h : nextChar e = .error fault e') :
    fault.kind = .lexical ∨ fault.cause = .lineEventRefused .expectedCharChecked .atLineEnd := by
  by_cases hs : e.Scannable
  · rw [nextChar_eq hs] at h
    split at h
    · cases h
    · split at h
      · cases h
      · split at h
        · cases h
          exact .inr rfl
        · cases h
  · obtain ⟨fault', hk, hf⟩ := nextChar_refuses hs
    rw [hf] at h
    cases h
    exact .inl hk

theorem scan_blames {p : Pattern} {e e' : Engine} {fault : LexError}
    (h : scan p e = .error fault e') :
    fault.kind = .lexical ∨ fault.cause = .lineEventRefused .expectedCharChecked .atLineEnd := by
  by_cases hs : e.Scannable
  · obtain ⟨o, e₁, hl⟩ := scanLayout_total hs
    have hlaid := (scanLayout_eq_ok_iff.mp hl).2
    rw [scan_eq p hl] at h
    cases o with
    | some outcome => cases h
    | none =>
      rw [tryPattern_eq p (hlaid.unclaimed hs)] at h
      dsimp only at h
      split at h
      · cases h
      · split at h
        · cases h
          exact .inr rfl
        · cases h
  · obtain ⟨fault', hk, hf⟩ := scanLayout_refuses hs
    rw [scan, Program.bind_apply, hf] at h
    cases h
    exact .inl hk

end Engine

namespace Queue

theorem transformed_blames {q : Queue} {entry : Entry} {e : LexError}
    (h : q.transformed entry = .error e) : e.cause = .blankEntry := by
  cases entry with
  | endOfStream | error => cases h
  | token type token =>
    rw [transformed_token] at h
    split at h
    · cases h
      rfl
    · split at h
      · cases h
      · split at h
        · cases h
        · split at h <;> cases h
          rfl

theorem enqueue_blames {q : Queue} {entry : Entry} {e : LexError}
    (h : q.enqueue entry = .error e) : e.cause = .blankEntry :=
  transformed_blames (enqueue_eq_error h)

theorem pushAhead_blames {q : Queue} {entry : Entry} {e : LexError}
    (h : q.pushAhead entry = .error e) : e.cause = .blankEntry :=
  transformed_blames (pushAhead_eq_error h)

theorem dequeue_blames {q : Queue} {e : LexError} (h : q.dequeue = .error e) :
    e.cause = .emptyQueue := by
  rw [(dequeue_eq_error h).2]
  rfl

end Queue

namespace Lexer

/-- The program did not fail for want of a subrule. -/
def Found {α : Type} (r : EStateM.Result Stop Lexer α) : Prop :=
  ∀ e l name, r = .error (.fault e) l → e.cause ≠ .unknownSubrule name

variable {α β : Type} {l l' : Lexer}

theorem found_ok (a : α) (l : Lexer) : Found (.ok a l) := by
  intro e l' name h
  cases h

theorem found_exhausted (l : Lexer) :
    Found (.error .exhausted l : EStateM.Result Stop Lexer α) := by
  intro e l' name h
  cases h

theorem found_fault {e : LexError} (h : ∀ name, e.cause ≠ .unknownSubrule name) (l : Lexer) :
    Found (.error (.fault e) l : EStateM.Result Stop Lexer α) := by
  intro e' l' name he
  cases he
  exact h name

theorem found_lexical {e : LexError} (h : e.kind = .lexical) (l : Lexer) :
    Found (.error (.fault e) l : EStateM.Result Stop Lexer α) := by
  apply found_fault
  intro name hc
  rw [LexError.kind, hc] at h
  cases h

theorem found_bind {m : LexerM α} {f : α → LexerM β} (hm : Found (m l))
    (hf : ∀ a l', m l = .ok a l' → Found (f a l')) : Found ((m >>= f) l) := by
  rw [Program.bind_apply]
  cases hr : m l with
  | ok a l' => exact hf a l' hr
  | error stop l' =>
    intro e l₁ name he
    cases he
    exact hm e l' name hr

theorem found_answered {m : LexerM α} (hm : Found (m l)) (b : β) :
    Found ((m >>= fun _ => pure b) l) := found_bind hm fun _ l' _ => found_ok b l'

theorem found_ending {r : EStateM.Result Stop Lexer α} (h : Found (ending r)) : Found r := by
  cases r with
  | ok a l => exact found_ok a l
  | error stop l =>
    intro e l' name he
    cases he
    exact h e l name rfl

theorem blamed_found {e : LexError}
    (h : e.kind = .lexical ∨ e.cause = .lineEventRefused .expectedCharChecked .atLineEnd)
    (l : Lexer) : Found (.error (.fault e) l : EStateM.Result Stop Lexer α) := by
  rcases h with hk | hc
  · exact found_lexical hk l
  · exact found_fault (by simp [hc]) l

theorem nextChar_found (l : Lexer) : Found (onEngine Engine.nextChar l) := by
  unfold onEngine
  split
  · exact found_ok _ _
  · next h => exact blamed_found (Engine.nextChar_blames h) _

theorem scanToken_found (p : Pattern) (l : Lexer) : Found (scanToken p l) := by
  refine found_bind ?_ fun _ l' _ => found_ok _ l'
  unfold onEngine
  split
  · exact found_ok _ _
  · next h => exact blamed_found (Engine.scan_blames h) _

theorem enqueueToken_found (type : TokenType) (l : Lexer) : Found (enqueueToken type l) := by
  rw [enqueueToken_eq]
  split
  · exact found_ok _ _
  · dsimp only
    split
    · exact found_ok _ _
    · next h => exact found_fault (by simp [Queue.enqueue_blames h]) _

theorem unknownToken_found (l : Lexer) : Found (unknownToken l) := by
  rw [unknownToken_eq]
  dsimp only
  split
  · exact found_ok _ _
  · exact found_lexical rfl _
  · split
    · split
      · exact found_ok _ _
      · exact found_lexical rfl _
      · next h => exact blamed_found (Engine.nextChar_blames h) _
    · exact found_lexical rfl _

theorem restoreSnapshot_found (l : Lexer) : Found (onEngine Engine.restoreSnapshot l) := by
  unfold onEngine Engine.restoreSnapshot
  split
  · exact found_ok _ _
  · next h =>
    split at h
    · cases h
      exact found_fault (by simp [LexError.located]) _
    · cases h

theorem undoScan_found (l : Lexer) : Found (onEngine Engine.undoScan l) := by
  simp only [onEngine, Engine.undoScan_eq]
  exact found_ok _ _

theorem checkMode_found (mode : String) (l : Lexer) : Found (checkMode mode l) := by
  simp only [checkMode, Program.bind_apply, Program.get_apply]
  split
  · exact found_fault (by simp [LexError.plain]) _
  · exact found_ok _ _

theorem modeArgument_found (message : String) (args : List Value) (l : Lexer) :
    Found (modeArgument message args l) := by
  unfold modeArgument
  cases args.head?.bind Value.asText? with
  | some mode => exact found_ok _ _
  | none => exact found_fault (by simp [LexError.plain]) _

theorem changeMode_found (mode : String) (f : Lexer → Modes) (l : Lexer) :
    Found ((do checkMode mode; modify fun l => { l with modes := f l } : LexerM Unit) l) :=
  found_bind (checkMode_found mode l) fun _ _ _ => found_ok _ _

theorem popMode_found (l : Lexer) : Found (popMode l) := by
  simp only [popMode, Program.bind_apply, Program.get_apply]
  cases l.modes.pop? with
  | some modes => exact found_ok _ _
  | none => exact found_fault (by simp [LexError.plain]) _

theorem builtIn_found (message : String) (args : List Value) (l : Lexer) :
    Found (builtIn message args l) := by
  unfold builtIn
  split
  · exact unknownToken_found l
  · exact found_answered (nextChar_found l) none
  · exact found_ok _ _
  · exact found_answered (undoScan_found l) none
  · exact found_ok _ _
  · exact found_answered (restoreSnapshot_found l) none
  · exact found_ok _ _
  · exact found_bind (modeArgument_found _ _ l) fun mode l' _ =>
      found_answered (changeMode_found mode _ l') none
  · exact found_bind (modeArgument_found _ _ l) fun mode l' _ =>
      found_answered (changeMode_found mode _ l') none
  · exact found_answered (popMode_found l) none
  · exact found_fault (by simp [LexError.plain]) _

/-- Of the steps only a halt can report a missing subrule. -/
theorem Step.run_found {s : Step}
    (h : ∀ e name, s = .halt (.fault e) → e.cause ≠ .unknownSubrule name) (l : Lexer) :
    Found (s.run l) := by
  cases s with
  | nextChar => exact found_answered (nextChar_found l) ()
  | scan p => exact found_answered (scanToken_found p l) ()
  | enqueue type => exact found_answered (enqueueToken_found type l) ()
  | unknownToken => exact found_answered (unknownToken_found l) ()
  | putBack => exact undoScan_found l
  | clear => exact found_ok _ _
  | retype old new => exact found_ok _ _
  | message name args => exact found_answered (builtIn_found name args l) ()
  | halt stop =>
    cases stop with
    | exhausted => exact found_exhausted l
    | fault e => exact found_fault (fun name => h e name rfl) l

theorem capturing_found {m : LexerM α} (h : Found (m l)) : Found (capturing m l) := by
  rw [capturing_eq]
  split
  · exact found_ok _ _
  · next hr =>
    rw [hr] at h
    split
    · exact found_ok _ _
    · exact found_fault (fun name => h _ _ name rfl) _
  · exact found_exhausted _

theorem skipChar_found (l : Lexer) : Found (skipChar l) := by
  rw [skipChar_eq]
  split
  · exact found_ok _ _
  · next h => exact blamed_found (Engine.nextChar_blames h) _

theorem settle_found (rule : String) (start : Mark) (captured : Bool) (l : Lexer) :
    Found (settle rule start captured l) := by
  rw [settle_eq]
  split
  · exact found_ok _ _
  · exact found_ok _ _
  · exact found_ok _ _
  · exact found_ok _ _
  · split
    · exact skipChar_found _
    · exact found_ok _ _
  · split
    · exact skipChar_found _
    · exact found_ok _ _
  · exact found_fault (by simp [LexError.plain]) _

theorem enqueueIndent_found (h : l.engine.recognition = .recognized) : Found (enqueueIndent l) := by
  rw [enqueueIndent_eq h]
  split
  · exact found_ok _ _
  · next hq => exact found_fault (by simp [Queue.enqueue_blames hq]) _

theorem enqueueLineEnd_found (l : Lexer) : Found (enqueueLineEnd l) := by
  rw [enqueueLineEnd_eq]
  split
  · split
    · exact found_ok _ _
    · next hq => exact found_fault (by simp [Queue.pushAhead_blames hq]) _
  · exact found_ok _ _

theorem dequeue_found (l : Lexer) : Found (onQueue QueueM.dequeue l) := by
  rw [onQueue_dequeue]
  split
  · exact found_ok _ _
  · next h => exact found_fault (by simp [Queue.dequeue_blames h]) _

end Lexer
end TableLexer
