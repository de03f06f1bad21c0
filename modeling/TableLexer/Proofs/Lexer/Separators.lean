import TableLexer.Proofs.Engine.Separators
import TableLexer.Proofs.Lexer.Rules

/-!
# Line separators inside a rule

A scan inside a rule can meet the end of a line and leave its separator pending, and a later
scan of the same rule can consume it. Both can be read off the steps of the rule. Rules that
only queue, retype and branch on scans consume no separator that was not met before.
-/
namespace TableLexer

namespace Action

/-- The action queues, retypes, branches on a scan or is a sequence. -/
def Basic : Action → Prop
  | enqueue _ | onScan _ _ _ | sequence _ | retype _ _ => True
  | _ => False

instance : DecidablePred Basic
  | enqueue _ | onScan _ _ _ | sequence _ | retype _ _ => isTrue trivial
  | send _ _ | subrule _ | changeState _ _ _ | onLexeme _ _ _ | patterns _ | putBack | clear =>
    isFalse id

end Action

def Rule.Basic (r : Rule) : Prop := ∀ a ∈ r.allActions, a.Basic

instance : DecidablePred Rule.Basic :=
  fun r => inferInstanceAs (Decidable (∀ a ∈ r.allActions, a.Basic))

def Ruleset.Basic (rs : Ruleset) : Prop := ∀ r ∈ rs.rules, r.Basic

instance : DecidablePred Ruleset.Basic :=
  fun rs => inferInstanceAs (Decidable (∀ r ∈ rs.rules, r.Basic))

namespace Lexer

def Step.meets : Step → Lexer → List Separator
  | .scan p, l => (Engine.met? (Engine.scan p l.engine)).toList
  | _, _ => []

def Step.consumes : Step → Lexer → List Separator
  | .scan _, l => l.engine.leaving?.toList
  | _, _ => []

def observed (view : Step → Lexer → List Separator) : List Step → Lexer → List Separator
  | [], _ => []
  | s :: rest, l =>
    view s l ++ match s.run l with
      | .ok _ l' => observed view rest l'
      | .error _ _ => []

def Step.Basic : Step → Prop
  | .scan _ | .enqueue _ | .retype _ _ => True
  | _ => False

theorem basic_within {r : Rule} (h : r.Basic) (calls : CallSteps) (rs : Ruleset) :
    ∀ a ∈ r.allActions, a.Within calls rs Step.Basic := by
  intro a ha
  have hb := h a ha
  cases a with
  | enqueue | onScan | sequence | retype =>
    constructor
    · simp [Action.own, Step.Basic]
    · simp
  | _ => exact hb.elim

theorem topAction_basic {r : Rule} (h : r.Basic) {a : Action} (ha : a ∈ r.topActions)
    (calls : CallSteps) (l : Lexer) : ∀ s ∈ a.steps calls l, s.Basic :=
  Action.steps_allowed (fun _ => trivial) a
    (fun b hb => basic_within h calls l.ruleset b (List.mem_flatMap.mpr ⟨a, ha, hb⟩)) l rfl

theorem before_basic {r : Rule} (h : r.Basic) (calls : CallSteps) (l : Lexer) :
    ∀ s ∈ Action.stepsOption calls r.before l, s.Basic := by
  cases hb : r.before with
  | none => simp [Action.stepsOption]
  | some b =>
    rw [Action.stepsOption]
    exact topAction_basic h (by simp [Rule.topActions, hb]) calls l

theorem chosen_basic {r : Rule} (h : r.Basic) (calls : CallSteps) (l : Lexer) :
    ∀ s ∈ followed (r.dispatch l) (fun f => (r.chosen f).steps calls), s.Basic := by
  cases hd : r.dispatch l with
  | error stop l' => simp [followed]
  | ok found l' => exact topAction_basic h (Rule.chosen_mem hd) calls l'

/-- A basic rule reads at most one character, with basic steps before and after it. -/
theorem steps_basic {r : Rule} (h : r.Basic) (calls : CallSteps) (l : Lexer) :
    ∃ xs zs, (∀ s ∈ xs, s.Basic) ∧ (∀ s ∈ zs, s.Basic) ∧
      (r.steps calls l = xs ++ zs ∨ r.steps calls l = xs ++ .nextChar :: zs) := by
  have hb := before_basic h calls l
  cases hp : perform (Action.stepsOption calls r.before l) l with
  | error stop l₁ =>
    refine ⟨_, [], hb, by simp, .inl ?_⟩
    simp [Rule.steps, hp, followed]
  | ok _ l₁ =>
    have hc := chosen_basic h calls l₁
    have hsteps : r.steps calls l = Action.stepsOption calls r.before l ++ (r.dispatchSteps l₁ ++
        followed (r.dispatch l₁) fun f => (r.chosen f).steps calls) := by
      simp only [Rule.steps, hp, followed]
    cases hk : r.kind with
    | standard =>
      refine ⟨_, _, hb, hc, .inr ?_⟩
      rw [hsteps, Rule.dispatchSteps, hk, List.singleton_append]
    | lookahead =>
      refine ⟨_, r.dispatchSteps l₁ ++ followed (r.dispatch l₁) fun f => (r.chosen f).steps calls,
        hb, ?_, .inl hsteps⟩
      rw [List.forall_mem_append, Rule.dispatchSteps, hk]
      exact ⟨Rule.scanSteps_allowed (fun _ => trivial) r.handlers l₁, hc⟩

open Engine (Tracked SamePlace)

def Followed (start : Nat) (met : List Separator) {α : Type} :
    EStateM.Result Stop Lexer α → Prop
  | .ok _ l => Tracked start met l.engine
  | .error (.fault e) l =>
    Tracked start met l.engine ∨ e.kind ≠ .lexical ∧ l.engine.recognition = .tokenizing
  | .error .exhausted l => Tracked start met l.engine

/-- Steps consume only separators that were met, and meet none before the place `start`. -/
structure Traced (start : Nat) (met : List Separator) (xs : List Step) (l : Lexer) : Prop where
  consumed : ∀ s ∈ observed Step.consumes xs l, s ∈ met ++ observed Step.meets xs l
  beyond : ∀ s ∈ observed Step.meets xs l, start ≤ s.position.offset
  followed : Followed start (met ++ observed Step.meets xs l) (perform xs l)

variable {start : Nat} {met : List Separator} {l : Lexer}

theorem scan_followed (p : Pattern) (h : Tracked start met l.engine) :
    Followed start (met ++ (Step.scan p).meets l) ((Step.scan p).run l) := by
  simp only [Step.run_scan, scanToken, Step.meets]
  rw [ending_bind]
  unfold onEngine
  cases hr : Engine.scan p l.engine with
  | ok o e =>
    obtain ⟨hs, hp⟩ := Engine.scan_cases hr
    exact h.scanned hs hp
  | error fault e =>
    have hm : met ++ (Engine.met? (.error fault e)).toList = met := by simp [Engine.met?]
    rw [hm]
    by_cases hk : fault.kind = .lexical
    · rcases Engine.scan_fails hr with ⟨-, -, rfl⟩ | hi
      · exact .inl h
      · rw [hk] at hi
        cases hi
    · exact .inr ⟨hk, Engine.scan_breaks_off hr hk⟩

/-- What a scan meets lies where the scan has led. -/
theorem scan_meets_beyond (p : Pattern) (h : Tracked start met l.engine) :
    ∀ s ∈ (Step.scan p).meets l, start ≤ s.position.offset := by
  intro s hs
  obtain ⟨e, hr, hsep⟩ := Engine.met?_eq_some (Option.mem_toList.mp hs)
  obtain ⟨hscan, hp⟩ := Engine.scan_cases hr
  rw [Engine.separatorHere?_offset hsep]
  exact (h.scanned hscan hp).forward

theorem enqueue_followed (type : TokenType) (h : Tracked start met l.engine) :
    Followed start met ((Step.enqueue type).run l) := by
  have hq := h.samePlace (Engine.queued_samePlace l.engine)
  rw [Step.run_enqueue, enqueueToken_eq]
  split
  · exact h
  · dsimp only
    split
    · exact hq
    · exact .inl hq

theorem observed_single (view : Step → Lexer → List Separator) (s : Step) (l : Lexer) :
    observed view [s] l = view s l := by
  simp only [observed]
  cases s.run l <;> exact List.append_nil _

theorem traced_quiet {s : Step} (hm : s.meets l = []) (hc : s.consumes l = [])
    (hf : Followed start met (s.run l)) : Traced start met [s] l := by
  constructor
  · simp [observed_single, hc]
  · simp [observed_single, hm]
  · rw [observed_single, perform_single, hm, List.append_nil]
    exact hf

theorem scan_traced (p : Pattern) (h : Tracked start met l.engine) :
    Traced start met [.scan p] l := by
  constructor
  · rw [observed_single, observed_single]
    intro s hs
    exact List.mem_append_left _ (h.leaving (Option.mem_toList.mp hs))
  · rw [observed_single]
    exact scan_meets_beyond p h
  · rw [observed_single, perform_single]
    exact scan_followed p h

theorem Step.Basic.traced {s : Step} (hb : s.Basic) (h : Tracked start met l.engine) :
    Traced start met [s] l := by
  cases s with
  | scan p => exact scan_traced p h
  | enqueue type => exact traced_quiet rfl rfl (enqueue_followed type h)
  | retype old new =>
    apply traced_quiet rfl rfl
    rw [Step.run_retype]
    exact h
  | _ => exact hb.elim

theorem observed_append (view : Step → Lexer → List Separator) (xs ys : List Step) (l : Lexer) :
    observed view (xs ++ ys) l = observed view xs l ++ match perform xs l with
      | .ok _ l' => observed view ys l'
      | .error _ _ => [] := by
  induction xs generalizing l with
  | nil => rfl
  | cons s rest ih =>
    simp only [List.cons_append, observed, perform, Program.bind_apply, List.append_assoc]
    cases s.run l with
    | ok _ l' => simp only [ih l']
    | error stop l' => rfl

theorem traced_nil (h : Tracked start met l.engine) : Traced start met [] l := by
  constructor
  · simp [observed]
  · simp [observed]
  · rw [observed, List.append_nil]
    exact h

/-- What is traced on both sides of a place is traced across it. -/
theorem Traced.append {xs ys : List Step} (hx : Traced start met xs l)
    (hy : ∀ l', perform xs l = .ok () l' →
      Tracked start (met ++ observed Step.meets xs l) l'.engine →
      Traced start (met ++ observed Step.meets xs l) ys l') :
    Traced start met (xs ++ ys) l := by
  cases hr : perform xs l with
  | error stop l' =>
    have happ : ∀ view, observed view (xs ++ ys) l = observed view xs l := by
      intro view
      rw [observed_append, hr, List.append_nil]
    have hperf : perform (xs ++ ys) l = perform xs l := by rw [perform_append, hr]
    constructor
    · rw [happ, happ]
      exact hx.consumed
    · rw [happ]
      exact hx.beyond
    · rw [happ, hperf]
      exact hx.followed
  | ok _ l' =>
    have happ : ∀ view, observed view (xs ++ ys) l = observed view xs l ++ observed view ys l' := by
      intro view
      rw [observed_append, hr]
    have hperf : perform (xs ++ ys) l = perform ys l' := by rw [perform_append, hr]
    have htracked := hx.followed
    rw [hr] at htracked
    have hy := hy l' hr htracked
    constructor
    · intro s hs
      rw [happ, ← List.append_assoc]
      rw [happ] at hs
      rcases List.mem_append.mp hs with hs | hs
      · exact List.mem_append_left _ (hx.consumed s hs)
      · exact hy.consumed s hs
    · intro s hs
      rw [happ] at hs
      rcases List.mem_append.mp hs with hs | hs
      · exact hx.beyond s hs
      · exact hy.beyond s hs
    · rw [happ, hperf, ← List.append_assoc]
      exact hy.followed

theorem basic_traced {xs : List Step} (hb : ∀ s ∈ xs, s.Basic) (h : Tracked start met l.engine) :
    Traced start met xs l := by
  induction xs generalizing met l with
  | nil => exact traced_nil h
  | cons s rest ih =>
    rw [List.forall_mem_cons] at hb
    change Traced start met ([s] ++ rest) l
    exact (hb.1.traced h).append fun _ _ ht => ih hb.2 ht

theorem Step.Basic.fresh {s : Step} (hb : s.Basic) (h : l.engine.Fresh) {l' : Lexer}
    (hr : s.run l = .ok () l') : l'.engine.Fresh := by
  cases s with
  | scan p =>
    rw [Step.run_scan, scanToken, ending_bind] at hr
    unfold onEngine at hr
    cases hscan : Engine.scan p l.engine with
    | error fault e => simp [hscan] at hr
    | ok o e =>
      rw [hscan] at hr
      cases hr
      obtain ⟨hs, hp⟩ := Engine.scan_cases hscan
      exact hp.fresh hs h.between
  | enqueue type =>
    have hq : l.engine.recognizedNow.clearLexeme.Fresh := by
      apply h.samePlace (Engine.queued_samePlace l.engine)
      unfold Engine.recognizedNow
      split
      · simp [Engine.clearLexeme]
      · exact h.between
    rw [Step.run_enqueue, enqueueToken_eq] at hr
    split at hr
    · cases hr
      exact h
    · dsimp only at hr
      split at hr <;> cases hr
      exact hq
  | retype old new =>
    rw [Step.run_retype] at hr
    cases hr
    exact h
  | _ => exact hb.elim

theorem perform_fresh {xs : List Step} (hb : ∀ s ∈ xs, s.Basic) (h : l.engine.Fresh) {l' : Lexer}
    (hr : perform xs l = .ok () l') : l'.engine.Fresh := by
  induction xs generalizing l with
  | nil =>
    cases hr
    exact h
  | cons s rest ih =>
    rw [List.forall_mem_cons] at hb
    rw [perform, Program.bind_apply] at hr
    cases hs : s.run l with
    | error stop l₁ => simp [hs] at hr
    | ok _ l₁ =>
      rw [hs] at hr
      exact ih hb.2 (hb.1.fresh h hs) hr

theorem nextChar_traced (h : Tracked start met l.engine) (hf : l.engine.Fresh) :
    Traced start met [.nextChar] l := by
  apply traced_quiet rfl rfl
  rw [Step.run_nextChar]
  unfold onEngine
  cases hr : Engine.nextChar l.engine with
  | ok c e => exact h.charRead (Engine.nextChar_cases hr).2
  | error fault e =>
    rw [(hf.nextChar_fails hr).1]
    exact .inl h

/-- A basic rule consumes only separators that were met, by itself or before it. -/
theorem rule_traced {r : Rule} (hb : r.Basic) (calls : CallSteps)
    (h : Tracked start met l.engine) (hf : l.engine.Fresh) :
    Traced start met (r.steps calls l) l := by
  obtain ⟨xs, zs, hx, hz, hsteps | hsteps⟩ := steps_basic hb calls l
  · rw [hsteps]
    exact (basic_traced hx h).append fun _ _ ht => basic_traced hz ht
  · rw [hsteps]
    apply (basic_traced hx h).append
    intro l₁ hr ht
    change Traced start _ ([.nextChar] ++ zs) l₁
    exact (nextChar_traced ht (perform_fresh hx hf hr)).append fun _ _ ht => basic_traced hz ht

end Lexer
end TableLexer
