import TableLexer.Proofs.Lexer.Driver

/-!
# More allowance changes nothing

An answer that came within one allowance of nested calls comes within every larger one, and it
is the same answer. So whether a rule comes to an end does not depend on the allowance, and
neither does what it does.
-/
namespace TableLexer

namespace Lexer

def Returned {α : Type} (r : EStateM.Result Stop Lexer α) : Prop :=
  ∀ l, r ≠ .error .exhausted l

theorem returned_ok {α : Type} (a : α) (l : Lexer) : Returned (.ok a l) := by
  simp [Returned]

theorem returned_fault {α : Type} (e : LexError) (l : Lexer) :
    Returned (.error (.fault e) l : EStateM.Result Stop Lexer α) := by
  simp [Returned]

instance {α : Type} : DecidablePred (Returned (α := α))
  | .ok a l => isTrue (returned_ok a l)
  | .error (.fault e) l => isTrue (returned_fault e l)
  | .error .exhausted l => isFalse fun h => h l rfl

/-- Wherever the first program comes to an end the second one ends alike. -/
def Extends {α : Type} (m m' : LexerM α) : Prop := ∀ l, Returned (m l) → m' l = m l

variable {α β : Type} {m m' : LexerM α} {f f' : α → LexerM β}

theorem Extends.refl (m : LexerM α) : Extends m m := by
  intro l _
  rfl

theorem Extends.bind (hm : Extends m m') (hf : ∀ a, Extends (f a) (f' a)) :
    Extends (m >>= f) (m' >>= f') := by
  intro l h
  rw [Program.bind_apply] at h ⊢
  rw [Program.bind_apply]
  have hret : Returned (m l) := by
    intro l' he
    rw [he] at h
    exact h l' rfl
  rw [hm l hret]
  cases hr : m l with
  | ok a l' =>
    rw [hr] at h
    exact hf a l' h
  | error stop l' => rfl

theorem Extends.ite {c : Prop} [Decidable c] {m₁ m₂ m₁' m₂' : LexerM α} (h₁ : Extends m₁ m₁')
    (h₂ : Extends m₂ m₂') : Extends (if c then m₁ else m₂) (if c then m₁' else m₂') := by
  split
  · exact h₁
  · exact h₂

end Lexer

open Lexer

variable {call call' : Call → LexerM Reply}

theorem Lexer.sendMessage_extends (hc : ∀ c, Extends (call c) (call' c)) (message : String)
    (args : List Value) :
    Extends (sendMessage call message args) (sendMessage call' message args) := by
  apply Extends.bind (.refl get)
  intro l
  cases l.operation? message with
  | none => exact .refl _
  | some op =>
    cases op with
    | perform action => exact hc (.perform action)
    | keyword | fail | pushAhead | setInput => exact .refl _

namespace Action

theorem runOption_extends {o : Option Action}
    (ih : ∀ a ∈ o, Extends (run call a) (run call' a)) :
    Extends (runOption call o) (runOption call' o) := by
  cases o with
  | none =>
    simp only [runOption]
    exact .refl _
  | some a =>
    simp only [runOption]
    exact ih a rfl

theorem runList_extends {actions : List Action}
    (ih : ∀ a ∈ actions, Extends (run call a) (run call' a)) (last : Reply) :
    Extends (runList call last actions) (runList call' last actions) := by
  induction actions generalizing last with
  | nil =>
    simp only [runList]
    exact .refl _
  | cons a rest ihrest =>
    simp only [runList]
    apply Extends.bind (ih a List.mem_cons_self)
    intro reply
    exact ihrest (fun b hb => ih b (List.mem_cons_of_mem _ hb)) reply

theorem runPairs_extends {pairs : List (Pattern × Action)}
    (ih : ∀ pair ∈ pairs, Extends (run call pair.2) (run call' pair.2)) (last : Reply) :
    Extends (runPairs call last pairs) (runPairs call' last pairs) := by
  induction pairs generalizing last with
  | nil =>
    simp only [runPairs]
    exact .refl _
  | cons pair rest ihrest =>
    obtain ⟨p, a⟩ := pair
    simp only [runPairs]
    refine Extends.bind (.refl _) fun found => Extends.ite ?_ (.refl _)
    apply Extends.bind (ih (p, a) List.mem_cons_self)
    intro reply
    exact ihrest (fun b hb => ih b (List.mem_cons_of_mem _ hb)) reply

theorem run_extends (hc : ∀ c, Extends (call c) (call' c)) (a : Action) :
    Extends (run call a) (run call' a) := by
  induction a with
  | enqueue | putBack | clear | retype =>
    simp only [run]
    exact .refl _
  | send message args =>
    simp only [run]
    exact sendMessage_extends hc message args
  | subrule name =>
    simp only [run]
    exact hc (.subrule name)
  | changeState message state next ih =>
    simp only [run]
    exact Extends.bind (sendMessage_extends hc message _) fun _ => ih
  | onLexeme p hit miss ihhit ihmiss =>
    simp only [run]
    exact Extends.bind (.refl get) fun _ => Extends.ite ihhit (runOption_extends ihmiss)
  | onScan p hit miss ihhit ihmiss =>
    simp only [run]
    exact Extends.bind (.refl _) fun _ => Extends.ite ihhit (runOption_extends ihmiss)
  | patterns pairs ih =>
    simp only [run]
    exact runPairs_extends ih none
  | sequence actions ih =>
    simp only [run]
    exact runList_extends ih none

end Action

theorem Rule.run_extends (hc : ∀ c, Extends (call c) (call' c)) (r : Rule) :
    Extends (r.run call) (r.run call') := by
  refine Extends.bind (Action.runOption_extends fun a _ => Action.run_extends hc a) fun _ => ?_
  apply Extends.bind (.refl _)
  intro found
  cases found with
  | some h => exact Action.run_extends hc h.action
  | none => exact Action.run_extends hc r.otherwise

namespace Lexer

/-- The induction is on the smaller allowance: with none left there is no answer to keep. -/
theorem respond_extends {n n' : Nat} (h : n ≤ n') (c : Call) :
    Extends (respond n c) (respond n' c) := by
  induction n generalizing n' c with
  | zero =>
    intro l hret
    exact absurd rfl (hret l)
  | succ n ih =>
    obtain ⟨n', rfl⟩ : ∃ k, n' = k + 1 := ⟨n' - 1, by omega⟩
    have ih : ∀ c, Extends (respond n c) (respond n' c) := ih (by omega)
    cases c with
    | subrule name =>
      apply Extends.bind (.refl get)
      intro l
      cases l.ruleset.rule? name with
      | some r => exact Rule.run_extends ih r
      | none => exact .refl _
    | perform action => exact Action.run_extends ih action

theorem capturing_extends (hm : Extends m m') : Extends (capturing m) (capturing m') := by
  intro l h
  have hret : Returned (m l) := by
    intro l' he
    rw [capturing, he] at h
    exact h l' rfl
  rw [capturing, capturing, hm l hret]

theorem applyModeRule_extends {n n' : Nat} (h : n ≤ n') :
    Extends (applyModeRule n) (applyModeRule n') := by
  refine Extends.bind (.refl _) fun name => Extends.bind (.refl get) fun l => ?_
  cases l.ruleset.rule? name with
  | none => exact .refl _
  | some r =>
    refine Extends.bind (.refl _) fun _ => Extends.bind ?_ fun _ => .refl _
    exact capturing_extends (Rule.run_extends (respond_extends h) r)

theorem fillStep_extends {n n' : Nat} (h : n ≤ n') : Extends (fillStep n) (fillStep n') := by
  apply Extends.bind (.refl _)
  intro o
  cases o with
  | none => exact applyModeRule_extends h
  | some outcome =>
    cases outcome with
    | indentation | lineEnd | endOfStream => exact .refl _
    | token => exact applyModeRule_extends h

theorem fillQueue_extends {n n' rounds rounds' : Nat} (h : n ≤ n') (hr : rounds ≤ rounds') :
    Extends (fillQueue n rounds) (fillQueue n' rounds') := by
  induction rounds generalizing rounds' with
  | zero =>
    intro l hret
    exact absurd rfl (hret l)
  | succ rounds ih =>
    obtain ⟨k, rfl⟩ : ∃ k, rounds' = k + 1 := ⟨rounds' - 1, by omega⟩
    refine .bind (.refl _) fun l => .ite (.bind (fillStep_extends h) fun _ => ?_) (.refl _)
    exact ih (by omega)

theorem nextToken_extends {n n' : Nat} (h : n ≤ n') : Extends (nextToken n) (nextToken n') := by
  refine .bind (.refl get) fun l => ?_
  have hdeliver : Extends (onQueue QueueM.dequeue) (onQueue QueueM.dequeue) := .refl _
  have hfill : Extends (fillQueue n n >>= fun _ => onQueue QueueM.dequeue)
      (fillQueue n' n' >>= fun _ => onQueue QueueM.dequeue) :=
    .bind (fillQueue_extends h h) fun _ => hdeliver
  refine .ite (.bind (.refl _) fun _ => ?_) ?_
  all_goals exact .ite (.ite hfill (.refl _)) hdeliver

theorem next?_extends {n n' : Nat} (h : n ≤ n') : Extends (next? n) (next? n') := by
  intro l hret
  unfold next? at hret ⊢
  split
  · rfl
  · next hgoing =>
    rw [if_neg hgoing] at hret
    have hcall : Returned (nextToken n l) := by
      intro l' he
      rw [he] at hret
      exact hret _ rfl
    rw [nextToken_extends h l hcall]

theorem drain_extends {n n' rounds rounds' : Nat} (h : n ≤ n') (hr : rounds ≤ rounds') :
    Extends (drain n rounds) (drain n' rounds') := by
  induction rounds generalizing rounds' with
  | zero =>
    intro l hret
    exact absurd rfl (hret l)
  | succ rounds ih =>
    obtain ⟨k, rfl⟩ : ∃ k, rounds' = k + 1 := ⟨rounds' - 1, by omega⟩
    apply Extends.bind (next?_extends h)
    intro found
    cases found with
    | none => exact .refl _
    | some entry => exact .bind (ih (by omega)) fun _ => .refl _

theorem returned_bind {α β : Type} {m : LexerM α} {f : α → LexerM β} {l : Lexer}
    (hm : Returned (m l)) (hf : ∀ a l', Returned (f a l')) : Returned ((m >>= f) l) := by
  rw [Program.bind_apply]
  cases hr : m l with
  | ok a l' => exact hf a l'
  | error stop l' =>
    intro l₁ he
    rw [hr] at hm
    cases he
    exact hm l' rfl

theorem returned_answered {α β : Type} {m : LexerM α} {l : Lexer} (hm : Returned (m l)) (b : β) :
    Returned ((m >>= fun _ => pure b) l) := by
  apply returned_bind hm
  intro _ l'
  exact returned_ok b l'

theorem onEngine_returned {α : Type} (p : EngineM α) (l : Lexer) : Returned (onEngine p l) := by
  unfold onEngine
  split
  · exact returned_ok _ _
  · exact returned_fault _ _

theorem enqueueToken_returned (type : TokenType) (l : Lexer) : Returned (enqueueToken type l) := by
  rw [enqueueToken_eq]
  split
  · exact returned_ok _ _
  · dsimp only
    split
    · exact returned_ok _ _
    · exact returned_fault _ _

theorem unknownToken_returned (l : Lexer) : Returned (unknownToken l) := by
  rw [unknownToken_eq]
  dsimp only
  split
  · exact returned_ok _ _
  · exact returned_fault _ _
  · split
    · split
      · exact returned_ok _ _
      · exact returned_fault _ _
      · exact returned_fault _ _
    · exact returned_fault _ _

theorem checkMode_returned (mode : String) (l : Lexer) : Returned (checkMode mode l) := by
  simp only [checkMode, Program.bind_apply, Program.get_apply]
  split
  · exact returned_fault _ _
  · exact returned_ok _ _

theorem modeArgument_returned (message : String) (args : List Value) (l : Lexer) :
    Returned (modeArgument message args l) := by
  unfold modeArgument
  cases args.head?.bind Value.asText? with
  | some mode => exact returned_ok _ _
  | none => exact returned_fault _ _

theorem popMode_returned (l : Lexer) : Returned (popMode l) := by
  simp only [popMode, Program.bind_apply, Program.get_apply]
  cases l.modes.pop? with
  | some modes => exact returned_ok _ _
  | none => exact returned_fault _ _

theorem changeMode_returned (mode : String) (f : Lexer → Modes) (l : Lexer) :
    Returned ((do checkMode mode; modify fun l => { l with modes := f l } : LexerM Unit) l) := by
  apply returned_bind (checkMode_returned mode l)
  intro _ l'
  exact returned_ok _ _

theorem builtIn_returned (message : String) (args : List Value) (l : Lexer) :
    Returned (builtIn message args l) := by
  unfold builtIn
  split
  · exact unknownToken_returned l
  · exact returned_answered (onEngine_returned _ l) none
  · exact returned_ok _ _
  · exact returned_answered (onEngine_returned _ l) none
  · exact returned_ok _ _
  · exact returned_answered (onEngine_returned _ l) none
  · exact returned_ok _ _
  · apply returned_bind (modeArgument_returned _ _ l)
    intro mode l'
    exact returned_answered (changeMode_returned mode _ l') none
  · apply returned_bind (modeArgument_returned _ _ l)
    intro mode l'
    exact returned_answered (changeMode_returned mode _ l') none
  · exact returned_answered (popMode_returned l) none
  · exact returned_fault _ _

theorem scanToken_returned (p : Pattern) (l : Lexer) : Returned (scanToken p l) := by
  apply returned_bind (onEngine_returned _ l)
  intro _ l'
  exact returned_ok _ l'

theorem Step.run_returned {s : Step} (h : s ≠ .halt .exhausted) (l : Lexer) :
    Returned (s.run l) := by
  cases s with
  | nextChar => exact returned_answered (onEngine_returned _ l) ()
  | scan p => exact returned_answered (scanToken_returned p l) ()
  | enqueue type => exact returned_answered (enqueueToken_returned type l) ()
  | unknownToken => exact returned_answered (unknownToken_returned l) ()
  | putBack => exact onEngine_returned _ l
  | clear => exact returned_ok _ _
  | retype old new => exact returned_ok _ _
  | message name args => exact returned_answered (builtIn_returned name args l) ()
  | halt stop =>
    cases stop with
    | fault e => exact returned_fault _ _
    | exhausted => exact absurd rfl h

theorem perform_returned {xs : List Step} (h : ∀ s ∈ xs, s ≠ .halt .exhausted) (l : Lexer) :
    Returned (perform xs l) := by
  induction xs generalizing l with
  | nil => exact returned_ok _ _
  | cons s rest ih =>
    apply returned_bind (Step.run_returned (h s List.mem_cons_self) l)
    intro _ l'
    exact ih (fun t ht => h t (List.mem_cons_of_mem _ ht)) l'

theorem ruleRun_returned {r : Rule} (hflat : Ruleset.subruleNames r = []) {l : Lexer}
    (hops : l.operations = []) (n : Nat) : Returned (r.run (respond n) l) := by
  have hnone : ∀ a ∈ r.allActions, ∀ name, a ≠ .subrule name := by
    rintro a ha name rfl
    have hmem : name ∈ Ruleset.subruleNames r := List.mem_filterMap.mpr ⟨_, ha, rfl⟩
    simp [hflat] at hmem
  have hsteps : ∀ s ∈ r.steps (respondSteps n) l, s ≠ .halt .exhausted := by
    refine Rule.steps_allowed (P := fun s => s ≠ .halt .exhausted) (by simp) (by simp) ?_ rfl
    intro a ha
    constructor
    · rintro s hs rfl
      cases a <;> simp [Action.own] at hs
    · intro name he
      exact absurd he (hnone a ha name)
  have hp := perform_returned hsteps l
  rw [← Rule.run_eq_perform (respond_answers n) r l hops] at hp
  intro l' he
  rw [he] at hp
  exact hp l' rfl

theorem capturing_returned {α : Type} {m : LexerM α} {l : Lexer} (h : Returned (m l)) :
    Returned (capturing m l) := by
  rw [capturing_eq]
  split
  · exact returned_ok _ _
  · split
    · exact returned_ok _ _
    · exact returned_fault _ _
  · next hr =>
    rw [hr] at h
    exact absurd rfl (h _)

theorem settle_returned (rule : String) (start : Mark) (captured : Bool) (l : Lexer) :
    Returned (settle rule start captured l) := by
  have skip : ∀ l', Returned (skipChar l') := by
    intro l'
    exact returned_bind (onEngine_returned _ l') fun _ l' => onEngine_returned _ l'
  rw [settle_eq]
  split
  · exact returned_ok _ _
  · exact returned_ok _ _
  · exact returned_ok _ _
  · exact returned_ok _ _
  · split
    · exact skip _
    · exact returned_ok _ _
  · split
    · exact skip _
    · exact returned_ok _ _
  · exact returned_fault _ _

theorem applyModeRule_returned {l : Lexer} (hops : l.operations = [])
    (hflat : ∀ name r, l.options.ruleFor? l.modes.current = some name →
      l.ruleset.rule? name = some r → Ruleset.subruleNames r = []) (n : Nat) :
    Returned (applyModeRule n l) := by
  rw [applyModeRule_eq]
  cases hname : l.options.ruleFor? l.modes.current with
  | none => exact returned_fault _ _
  | some name =>
    dsimp only
    cases hr : l.ruleset.rule? name with
    | none => exact returned_fault _ _
    | some r =>
      have hrun := ruleRun_returned (l := l.counted) (hflat name r hname hr) hops n
      have hcap := capturing_returned hrun
      dsimp only
      cases hc : capturing (r.run (respond n)) l.counted with
      | ok captured l' => exact settle_returned _ _ captured l'
      | error stop l' =>
        rw [hc] at hcap
        intro l₁ he
        cases he
        exact hcap l' rfl

theorem enqueueIndent_returned {l : Lexer} (h : l.engine.recognition = .recognized) :
    Returned (enqueueIndent l) := by
  rw [enqueueIndent_eq h]
  split
  · exact returned_ok _ _
  · exact returned_fault _ _

theorem enqueueLineEnd_returned (l : Lexer) : Returned (enqueueLineEnd l) := by
  rw [enqueueLineEnd_eq]
  split
  · split
    · exact returned_ok _ _
    · exact returned_fault _ _
  · exact returned_ok _ _

end Lexer
end TableLexer
