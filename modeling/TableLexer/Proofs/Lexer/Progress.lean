import TableLexer.Proofs.Engine.Progress
import TableLexer.Proofs.Lexer.Rules
import TableLexer.Proofs.Programs

/-!
# Rules get on

While a rule of a ruleset that never restores a snapshot is applied, the engine stays at or
beyond the place where the rule started, and only tokens and lexical errors are queued.
-/
namespace TableLexer

namespace Action

def Sends (message : String) : Action → Prop
  | send m _ => m = message
  | changeState m _ _ => m = message
  | _ => False

instance (message : String) : DecidablePred (Sends message)
  | send m _ | changeState m _ _ => inferInstanceAs (Decidable (m = message))
  | enqueue _ | subrule _ | onLexeme _ _ _ | onScan _ _ _ | patterns _ | sequence _ | putBack
  | clear | retype _ _ => isFalse id

end Action

def Ruleset.NeverSends (rs : Ruleset) (message : String) : Prop :=
  ∀ r ∈ rs.rules, ∀ a ∈ r.allActions, ¬ a.Sends message

instance (rs : Ruleset) (message : String) : Decidable (rs.NeverSends message) :=
  inferInstanceAs (Decidable (∀ r ∈ rs.rules, ∀ a ∈ r.allActions, ¬ a.Sends message))

def Lexer.Step.Onward (s : Step) : Prop := ∀ args, s ≠ .message "restore_snapshot" args

theorem Ruleset.NeverSends.allows {rs : Ruleset} {message : String} (h : rs.NeverSends message) :
    rs.Allows fun s => ∀ args, s ≠ .message message args := by
  constructor
  · simp
  · simp
  · simp
  · rintro r hr a ha s hs args rfl
    have hn := h r hr a ha
    cases a with
    | send | changeState =>
      simp only [Action.own, List.mem_singleton, Lexer.Step.message.injEq] at hs
      exact hn hs.1.symm
    | _ => simp [Action.own] at hs

namespace Lexer

/-- What holds while a rule is applied that started at the place `start`. -/
structure Applying (start : Nat) (l : Lexer) : Prop where
  engine : l.engine.Advancing start
  queue : l.queue.AllPlain

variable {α : Type} {start : Nat} {l : Lexer}

theorem onEngine_applying {m : EngineM α} (hl : l.Applying start)
    (hok : ∀ a e, m l.engine = .ok a e → e.Advancing start)
    (hfail : ∀ fault e, m l.engine = .error fault e → fault.kind = .lexical →
      e.Advancing start) :
    Kept (Applying start) (onEngine m l) := by
  unfold onEngine
  cases hr : m l.engine with
  | ok a e => exact ⟨hok a e hr, hl.queue⟩
  | error fault e =>
    intro hk
    exact ⟨hfail fault e hr hk, hl.queue⟩

theorem nextChar_applying (hl : l.Applying start) :
    Kept (Applying start) (onEngine Engine.nextChar l) := by
  apply onEngine_applying hl
  · intro c e h
    exact hl.engine.charRead (Engine.nextChar_cases h).2
  · intro fault e h hk
    rcases Engine.nextChar_fails h with ⟨-, -, rfl⟩ | hi
    · exact hl.engine
    · rw [hk] at hi
      cases hi

theorem scanToken_applying (p : Pattern) (hl : l.Applying start) :
    Kept (Applying start) (scanToken p l) := by
  have hscan : Kept (Applying start) (onEngine (Engine.scan p) l) := by
    apply onEngine_applying hl
    · intro o e h
      obtain ⟨hs, hp⟩ := Engine.scan_cases h
      exact hl.engine.scanned hs hp
    · intro fault e h hk
      rcases Engine.scan_fails h with ⟨-, -, rfl⟩ | hi
      · exact hl.engine
      · rw [hk] at hi
        cases hi
  apply kept_bind hscan
  intro _ _ hl'
  exact hl'

theorem enqueueToken_applying (type : TokenType) (hl : l.Applying start) :
    Kept (Applying start) (enqueueToken type l) := by
  rw [enqueueToken_eq]
  split
  · exact hl
  · dsimp only
    split
    · next h => exact ⟨hl.engine.queued, Queue.AllPlain.enqueue hl.queue (by trivial) h⟩
    · next h =>
      intro hk
      rw [Queue.enqueue_fails h] at hk
      cases hk

theorem unknownToken_applying (hl : l.Applying start) :
    Kept (Applying start) (unknownToken l) := by
  have hn := nextChar_applying hl
  rw [unknownToken_eq]
  dsimp only
  split
  · exact hl
  · intro _
    exact hl
  · split
    · unfold onEngine at hn
      split
      · next h =>
        rw [h] at hn
        exact hn
      · next c e h =>
        rw [h] at hn
        have hr := (Engine.nextChar_cases h).2.tokenizing
        intro _
        exact ⟨hn.engine.failedNow (by simp [hr]), hl.queue⟩
      · next h =>
        rw [h] at hn
        exact hn
    · next hx =>
      have hne : l.engine.lexeme ≠ [] := by simpa using hx
      intro _
      exact ⟨hl.engine.failedNow fun _ => hne, hl.queue⟩

theorem undoScan_applying (hl : l.Applying start) :
    Kept (Applying start) (onEngine Engine.undoScan l) := by
  simp only [onEngine, Engine.undoScan_eq]
  exact ⟨hl.engine.undone, hl.queue⟩

theorem clear_applying (hl : l.Applying start) :
    Kept (Applying start) (modifyEngine Engine.clearLexeme l) :=
  ⟨hl.engine.clearLexeme, hl.queue⟩

theorem retypeLast_applying (old new : TokenType) (hl : l.Applying start) :
    Kept (Applying start) (retypeLast old new l) :=
  ⟨hl.engine, hl.queue.mapLast fun _ => Entry.Plain.retypeFrom old new⟩

theorem checkMode_applying (mode : String) (hl : l.Applying start) :
    Kept (Applying start) (checkMode mode l) := by
  simp only [checkMode, Program.bind_apply, Program.get_apply]
  split
  · intro _
    exact hl
  · exact hl

theorem modeArgument_applying (message : String) (args : List Value) (hl : l.Applying start) :
    Kept (Applying start) (modeArgument message args l) := by
  unfold modeArgument
  cases args.head?.bind Value.asText? with
  | some mode => exact hl
  | none =>
    intro _
    exact hl

theorem popMode_applying (hl : l.Applying start) : Kept (Applying start) (popMode l) := by
  simp only [popMode, Program.bind_apply, Program.get_apply]
  cases l.modes.pop? with
  | some modes => exact ⟨hl.engine, hl.queue⟩
  | none =>
    intro _
    exact hl

theorem changeMode_applying (mode : String) (f : Lexer → Modes) (hl : l.Applying start) :
    Kept (Applying start)
      ((do checkMode mode; modify fun l => { l with modes := f l } : LexerM Unit) l) := by
  apply kept_bind (checkMode_applying mode hl)
  intro _ _ hl'
  exact ⟨hl'.engine, hl'.queue⟩

theorem builtIn_applying {message : String} (hm : message ≠ "restore_snapshot")
    (args : List Value) (hl : l.Applying start) :
    Kept (Applying start) (builtIn message args l) := by
  unfold builtIn
  split
  · exact unknownToken_applying hl
  · exact kept_answered (nextChar_applying hl) none
  · exact kept_answered (clear_applying hl) none
  · exact kept_answered (undoScan_applying hl) none
  · exact ⟨hl.engine.sameScan rfl rfl rfl, hl.queue⟩
  · exact absurd rfl hm
  · exact ⟨hl.engine.sameScan rfl rfl rfl, hl.queue⟩
  · apply kept_bind (modeArgument_applying _ _ hl)
    intro mode _ hl'
    exact kept_answered (changeMode_applying mode _ hl') none
  · apply kept_bind (modeArgument_applying _ _ hl)
    intro mode _ hl'
    exact kept_answered (changeMode_applying mode _ hl') none
  · exact kept_answered (popMode_applying hl) none
  · intro _
    exact hl

/-- Every step but the return to a snapshot keeps to the place the rule started at. -/
theorem Step.run_applying {s : Step} (hs : s.Onward) (hl : l.Applying start) :
    Kept (Applying start) (s.run l) := by
  cases s with
  | nextChar => exact kept_answered (nextChar_applying hl) ()
  | scan p => exact kept_answered (scanToken_applying p hl) ()
  | enqueue type => exact kept_answered (enqueueToken_applying type hl) ()
  | unknownToken => exact kept_answered (unknownToken_applying hl) ()
  | putBack => exact undoScan_applying hl
  | clear => exact clear_applying hl
  | retype old new => exact kept_answered (retypeLast_applying old new hl) ()
  | message name args =>
    have hm : name ≠ "restore_snapshot" := by
      rintro rfl
      exact hs args rfl
    exact kept_answered (builtIn_applying hm args hl) ()
  | halt stop =>
    cases stop with
    | fault e =>
      intro _
      exact hl
    | exhausted => trivial

theorem Rule.run_applying {r : Rule} (hn : l.ruleset.NeverSends "restore_snapshot")
    (hr : r ∈ l.ruleset.rules) (hops : l.operations = []) (hl : l.Applying start) (n : Nat) :
    Kept (Applying start) (r.run (respond n) l) :=
  Rule.run_kept hn.allows (fun _ hs _ => Step.run_applying hs) hr n hops rfl hl

end Lexer
end TableLexer
