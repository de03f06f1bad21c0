import TableLexer.Proofs.Lexer.Progress
import TableLexer.Proofs.Lexer.Vetted
import TableLexer.Proofs.StateMachines

/-!
# Rules that fail on the text only

A rule set may do harm by itself: it can name a type or a subrule that does not exist, leave a
mode that was not entered, restore a snapshot that was not taken, or queue a token without a
named type. For a rule set that does none of this, the engine and the queue refuse nothing while
a rule is applied, and all that is left to go wrong are lexical errors.
-/
namespace TableLexer

def Action.SendsOnly (messages : List String) (a : Action) : Prop :=
  ∀ m, a.Sends m → m ∈ messages

instance (messages : List String) : DecidablePred (Action.SendsOnly messages)
  | .send m _ | .changeState m _ _ => decidable_of_iff (m ∈ messages)
      ⟨fun h _ hm => (show m = _ from hm) ▸ h, fun h => h m rfl⟩
  | .enqueue _ | .subrule _ | .onLexeme _ _ _ | .onScan _ _ _ | .patterns _ | .sequence _
  | .putBack | .clear | .retype _ _ => isTrue fun _ hm => hm.elim

namespace Ruleset

def SendsOnly (rs : Ruleset) (messages : List String) : Prop :=
  ∀ r ∈ rs.rules, ∀ a ∈ r.allActions, a.SendsOnly messages

instance (rs : Ruleset) (messages : List String) : Decidable (rs.SendsOnly messages) :=
  inferInstanceAs (Decidable (∀ r ∈ rs.rules, ∀ a ∈ r.allActions, a.SendsOnly messages))

theorem SendsOnly.never {rs : Ruleset} {messages : List String} {message : String}
    (h : rs.SendsOnly messages) (hm : message ∉ messages) : rs.NeverSends message :=
  fun r hr a ha hs => hm (h r hr a ha message hs)

/-- The messages that ask neither for a mode nor for a snapshot, which might be missing. -/
def harmlessMessages : List String :=
  ["unknown_token", "next_char", "clear", "undo_scan", "add_snapshot", "pop_snapshot"]

structure Harmless (rs : Ruleset) : Prop where
  vetted : rs.Vetted
  sends : rs.SendsOnly harmlessMessages
  named : ∀ type, rs.hasType type = true → type.isBlankSymbol = false

end Ruleset

def Transform.Names (t : Transform) : Prop :=
  ∀ token made, t.apply token = some made → made.1.isBlankSymbol = false

namespace Queue

variable {q : Queue} {type : TokenType} {token : Token}

theorem transformed_succeeds (h : ∀ t ∈ q.transforms, t.Names) (ht : type.isBlankSymbol = false)
    (token : Token) : ∃ reply, q.transformed (.token type token) = .ok reply := by
  rw [transformed_token, ht]
  simp only [Bool.false_eq_true, ↓reduceIte]
  cases hf : transform? q.transforms type with
  | none => exact ⟨_, rfl⟩
  | some t =>
    cases hm : t.apply token with
    | none => exact ⟨none, by simp only [hm]⟩
    | some made =>
      have hnamed := h t (List.mem_of_find?_eq_some hf) token made hm
      exact ⟨some (.token made.1 made.2), by simp [hm, hnamed]⟩

theorem enqueue_succeeds (h : ∀ t ∈ q.transforms, t.Names) (ht : type.isBlankSymbol = false)
    (token : Token) : ∃ reply r, q.enqueue (.token type token) = .ok (reply, r) := by
  obtain ⟨reply, hreply⟩ := transformed_succeeds h ht token
  rw [enqueue_eq, hreply]
  cases reply <;> exact ⟨_, _, rfl⟩

theorem pushAhead_succeeds (h : ∀ t ∈ q.transforms, t.Names) (ht : type.isBlankSymbol = false)
    (token : Token) : ∃ reply r, q.pushAhead (.token type token) = .ok (reply, r) := by
  obtain ⟨reply, hreply⟩ := transformed_succeeds h ht token
  rw [pushAhead_eq, hreply]
  cases reply <;> exact ⟨_, _, rfl⟩

end Queue

namespace Engine

/-- Noise starts apart from separators, and wherever a line has ended there is one. -/
structure Robust (e : Engine) : Prop where
  apart : e.config.Apart
  backed : e.Holds (Mark.Backed e.config e.input)

variable {e e' : Engine} {fault : LexError}

theorem Robust.next (h : e.Robust) (c : Command) : (e.next c).Robust := by
  have hconfig := next_config e c
  constructor
  · rw [hconfig]
    exact h.apart
  · rw [hconfig]
    exact next_holds (fun text => Mark.backed_stable h.apart text _)
      (Mark.origin_backed e.config) h.backed c (tokenEnds_anywhere e c)

theorem Robust.clearLexeme (h : e.Robust) : e.clearLexeme.Robust := h.next .clearLexeme

theorem Robust.recognizedNow (h : e.Robust) : e.recognizedNow.Robust := by
  simpa [Engine.next, markRecognized_eq] using h.next .markRecognized

theorem Robust.failedNow (h : e.Robust) : e.failedNow.Robust := by
  simpa [Engine.next, markFailed_eq] using h.next .markFailed

theorem Robust.rested (h : e.Robust) : e.rested.Robust := by
  simpa [Engine.next, resetRecognition_eq] using h.next .resetRecognition

theorem lexical_of_blamed
    (hb : fault.kind = .lexical ∨ fault.cause = .lineEventRefused .expectedCharChecked .atLineEnd)
    (hs : fault.kind ≠ .internal) : fault.kind = .lexical := by
  rcases hb with hk | hc
  · exact hk
  · exact absurd (by rw [LexError.kind, hc]; rfl) hs

theorem Robust.nextChar_lexical (h : e.Robust) (hf : nextChar e = .error fault e') :
    fault.kind = .lexical :=
  lexical_of_blamed (nextChar_blames hf) (nextChar_sound h.backed fault e' hf)

theorem Robust.scan_lexical (h : e.Robust) {p : Pattern} (hf : scan p e = .error fault e') :
    fault.kind = .lexical :=
  lexical_of_blamed (scan_blames hf) (scan_sound h.apart h.backed p fault e' hf)

end Engine

namespace Lexer

/-- Nothing in the lexer can fail but for the text. -/
structure Robust (l : Lexer) : Prop where
  operations : l.operations = []
  rules : l.ruleset.Harmless
  modes : l.modes = {}
  main : ∃ r, l.ruleset.rule? l.options.mainRule = some r
  eolType : l.options.eolType.isBlankSymbol = false
  indentType : l.options.indentType.isBlankSymbol = false
  transforms : ∀ t ∈ l.queue.transforms, t.Names
  engine : l.engine.Robust

/-- The program failed at most with a lexical error, and left a robust lexer. -/
def Withstood {α : Type} : EStateM.Result Stop Lexer α → Prop
  | .ok _ l => l.Robust
  | .error (.fault e) l => e.kind = .lexical ∧ l.Robust
  | .error .exhausted _ => True

variable {α β : Type} {l : Lexer}

theorem withstood_ending {r : EStateM.Result Stop Lexer α} :
    Withstood (ending r) ↔ Withstood r := by
  cases r with
  | ok a l => exact Iff.rfl
  | error stop l => cases stop <;> exact Iff.rfl

theorem withstood_bind {m : LexerM α} {f : α → LexerM β} (hm : Withstood (m l))
    (hf : ∀ a l', l'.Robust → Withstood (f a l')) : Withstood ((m >>= f) l) := by
  rw [Program.bind_apply]
  cases hr : m l with
  | ok a l' =>
    rw [hr] at hm
    exact hf a l' hm
  | error stop l' =>
    rw [hr] at hm
    cases stop <;> exact hm

theorem withstood_answered {m : LexerM α} (hm : Withstood (m l)) (b : β) :
    Withstood ((m >>= fun _ => pure b) l) := withstood_bind hm fun _ _ h => h

theorem Robust.withEngine (h : l.Robust) {e : Engine} (he : e.Robust) :
    Robust { l with engine := e } := { h with engine := he }

theorem Robust.withQueue (h : l.Robust) {q : Queue} (hq : q.transforms = l.queue.transforms) :
    Robust { l with queue := q } := { h with transforms := hq ▸ h.transforms }

theorem Robust.withStats (h : l.Robust) (stats : Stats) : Robust { l with stats } := { h with }

/-- An operation of the engine that fails with lexical errors only is withstood. -/
theorem onEngine_withstood (h : l.Robust) {m : EngineM α} (c : Engine.Command)
    (hc : l.engine.next c = Program.final (m l.engine))
    (hm : ∀ fault e, m l.engine = .error fault e → fault.kind = .lexical) :
    Withstood (onEngine m l) := by
  have he := h.engine.next c
  rw [hc] at he
  unfold onEngine
  cases hr : m l.engine with
  | ok a e =>
    rw [hr] at he
    exact h.withEngine he
  | error fault e =>
    rw [hr] at he
    exact ⟨hm fault e hr, h.withEngine he⟩

theorem nextChar_withstood (h : l.Robust) : Withstood (onEngine Engine.nextChar l) :=
  onEngine_withstood h .nextChar rfl fun _ _ => h.engine.nextChar_lexical

theorem scanToken_withstood (p : Pattern) (h : l.Robust) : Withstood (scanToken p l) :=
  withstood_bind (onEngine_withstood h (.scan p) rfl fun _ _ => h.engine.scan_lexical)
    fun _ _ h' => h'

theorem undoScan_withstood (h : l.Robust) : Withstood (onEngine Engine.undoScan l) :=
  onEngine_withstood h .undoScan rfl fun _ _ hf => by simp [Engine.undoScan_eq] at hf

theorem enqueueToken_withstood {type : TokenType} (ht : type.isBlankSymbol = false)
    (h : l.Robust) : Withstood (enqueueToken type l) := by
  rw [enqueueToken_eq]
  split
  · exact h
  · have he := h.engine.recognizedNow.clearLexeme
    obtain ⟨reply, q, hq⟩ := Queue.enqueue_succeeds h.transforms ht
      (.ofLexeme l.engine.recognizedNow.lexemeText l.engine.recognizedNow.lexemePosition)
    simp only [hq]
    exact ((h.withEngine he).withQueue (Queue.enqueue_transforms hq)).withStats _

theorem unknownToken_withstood (h : l.Robust) : Withstood (unknownToken l) := by
  have hn := nextChar_withstood h
  rw [unknownToken_eq]
  dsimp only
  split
  · exact h
  · exact ⟨rfl, h⟩
  · split
    · unfold onEngine at hn
      split
      · next hr =>
        rw [hr] at hn
        exact hn
      · next hr =>
        rw [hr] at hn
        exact ⟨rfl, h.withEngine hn.engine.failedNow⟩
      · next hr =>
        rw [hr] at hn
        exact hn
    · exact ⟨rfl, h.withEngine h.engine.failedNow⟩

theorem builtIn_withstood {message : String} (hm : message ∈ Ruleset.harmlessMessages)
    (args : List Value) (h : l.Robust) : Withstood (builtIn message args l) := by
  unfold builtIn
  split
  · exact unknownToken_withstood h
  · exact withstood_answered (nextChar_withstood h) none
  · exact h.withEngine h.engine.clearLexeme
  · exact withstood_answered (undoScan_withstood h) none
  · exact h.withEngine (h.engine.next .addSnapshot)
  · simp [Ruleset.harmlessMessages] at hm
  · exact h.withEngine (h.engine.next .popSnapshot)
  · simp [Ruleset.harmlessMessages] at hm
  · simp [Ruleset.harmlessMessages] at hm
  · simp [Ruleset.harmlessMessages] at hm
  · simp_all [Ruleset.harmlessMessages]

def Step.Harmless : Step → Prop
  | .enqueue type => type.isBlankSymbol = false
  | .message name _ => name ∈ Ruleset.harmlessMessages
  | .halt (.fault _) => False
  | _ => True

theorem Step.run_withstood {s : Step} (hs : s.Harmless) (h : l.Robust) :
    Withstood (s.run l) := by
  cases s with
  | nextChar => exact withstood_answered (nextChar_withstood h) ()
  | scan p => exact withstood_answered (scanToken_withstood p h) ()
  | enqueue type => exact withstood_answered (enqueueToken_withstood hs h) ()
  | unknownToken => exact withstood_answered (unknownToken_withstood h) ()
  | putBack => exact undoScan_withstood h
  | clear => exact h.withEngine h.engine.clearLexeme
  | retype old new => exact h.withQueue (Queue.mapLast_transforms _ _)
  | message name args => exact withstood_answered (builtIn_withstood hs args h) ()
  | halt stop =>
    cases stop with
    | fault e => exact hs.elim
    | exhausted => trivial

theorem perform_withstood {xs : List Step} (hs : ∀ s ∈ xs, s.Harmless) (h : l.Robust) :
    Withstood (perform xs l) := by
  induction xs generalizing l with
  | nil => exact h
  | cons s rest ih =>
    rw [List.forall_mem_cons] at hs
    exact withstood_bind (Step.run_withstood hs.1 h) fun _ _ h' => ih hs.2 h'

theorem Step.harmless_of_own {rs : Ruleset} (h : rs.Harmless) {r : Rule} (hr : r ∈ rs.rules)
    {a : Action} (ha : a ∈ r.allActions) : ∀ s ∈ a.own, s.Harmless := by
  have hsends := h.sends r hr a ha
  have hnamed : ∀ type ∈ Ruleset.emitted a, type.isBlankSymbol = false := by
    intro type ht
    exact h.named type (h.vetted.registered r hr a ha type ht)
  intro s hs
  cases a with
  | enqueue type =>
    rw [Action.own, List.mem_singleton] at hs
    subst hs
    exact hnamed type (by simp [Ruleset.emitted])
  | send message | changeState message =>
    rw [Action.own, List.mem_singleton] at hs
    subst hs
    exact hsends message rfl
  | patterns | putBack | clear | retype =>
    rw [Action.own, List.mem_singleton] at hs
    subst hs
    trivial
  | subrule | onLexeme | onScan | sequence => cases hs

/-- A rule of a robust lexer fails at most with a lexical error. -/
theorem ruleRun_withstood (h : l.Robust) {r : Rule} (hr : r ∈ l.ruleset.rules) (n : Nat) :
    Withstood (r.run (respond n) l) := by
  rw [← withstood_ending, Rule.run_eq_perform (respond_answers n) r l h.operations]
  refine perform_withstood ?_ h
  exact ruleSteps_written h.rules.vetted trivial (fun _ => trivial) trivial
    (fun r hr a ha => Step.harmless_of_own h.rules hr ha) hr n rfl

end Lexer
end TableLexer
