import TableLexer.Proofs.Lexer.Faults
import TableLexer.Proofs.Lexer.Modes
import TableLexer.Proofs.Lexer.Types
import TableLexer.Proofs.Rulesets

/-!
# Rules that passed their checks

The checks of a rule set look at the actions as they are written. What its rules do when they are
applied, in whatever branch and however deep in subrules, comes from an action that was checked:
the tokens they make have registered types, and the subrules they call for exist.
-/
namespace TableLexer

namespace Ruleset

inductive Definition where
  | types (types : List (TokenType × String))
  | rule (r : Rule)
  deriving Repr

def define (rs : Ruleset) : Definition → Ruleset
  | .types types => (rs.setTypes types).toOption.getD rs
  | .rule r => (rs.addRule r).toOption.getD rs

def build (calls : List Definition) : Ruleset := calls.foldl define {}

/-- The rules use registered types only; there are none before there are types. -/
structure Typed (rs : Ruleset) : Prop where
  registered : ∀ r ∈ rs.rules, ∀ a ∈ r.allActions, ∀ type ∈ emitted a, rs.hasType type = true
  untyped : rs.types = none → rs.rules = []

variable {rs rs' : Ruleset}

theorem define_cases (rs : Ruleset) (d : Definition) :
    rs.define d = rs ∨ (∃ types, rs.setTypes types = .ok (rs.define d)) ∨
      ∃ r, rs.addRule r = .ok (rs.define d) := by
  cases d with
  | types types =>
    cases h : rs.setTypes types with
    | error e => simp [define, h, Except.toOption]
    | ok rs' => exact .inr (.inl ⟨types, by simp [define, h, Except.toOption]⟩)
  | rule r =>
    cases h : rs.addRule r with
    | error e => simp [define, h, Except.toOption]
    | ok rs' => exact .inr (.inr ⟨r, by simp [define, h, Except.toOption]⟩)

theorem Typed.setTypes (h : rs.Typed) {types : List (TokenType × String)}
    (hset : rs.setTypes types = .ok rs') : rs'.Typed := by
  obtain ⟨hnone, hrules⟩ := setTypes_eq_ok hset
  have hempty : rs'.rules = [] := hrules.trans (h.untyped hnone)
  constructor
  · simp [hempty]
  · intro _
    exact hempty

/-- A rule is checked when it is added, against types that stay registered. -/
theorem Typed.addRule (h : rs.Typed) {r : Rule} (hadd : rs.addRule r = .ok rs') : rs'.Typed := by
  have htypes := addRule_types hadd
  obtain ⟨-, -, hcheck, rfl⟩ := addRule_eq_ok hadd
  constructor
  · intro r' hr' a ha type ht
    rw [mem_insertBy] at hr'
    rcases hr' with rfl | hr'
    · exact checkRule_eq_ok_iff.mp hcheck a ha type ht
    · exact h.registered r' hr' a ha type ht
  · intro hnone
    exact absurd hnone htypes

theorem Typed.define (h : rs.Typed) (d : Definition) : (rs.define d).Typed := by
  rcases define_cases rs d with heq | ⟨types, hset⟩ | ⟨r, hadd⟩
  · rwa [heq]
  · exact h.setTypes hset
  · exact h.addRule hadd

theorem build_typed (calls : List Definition) : (build calls).Typed := by
  have hrun : ∀ rs : Ruleset, rs.Typed → (calls.foldl Ruleset.define rs).Typed := by
    induction calls with
    | nil => exact fun _ h => h
    | cons d calls ih => exact fun rs h => ih (rs.define d) (h.define d)
  exact hrun {} ⟨by simp, fun _ => rfl⟩

structure Vetted (rs : Ruleset) : Prop where
  registered : ∀ r ∈ rs.rules, ∀ a ∈ r.allActions, ∀ type ∈ emitted a, rs.hasType type = true
  linked : ∀ r ∈ rs.rules, ∀ name ∈ subruleNames r, ∃ r', rs.rule? name = some r'

theorem Typed.vetted (h : rs.Typed) (hvalid : rs.validate = .ok ()) : rs.Vetted :=
  ⟨h.registered, (validate_eq_ok_iff.mp hvalid).1⟩

end Ruleset

namespace Lexer

/-- The step makes no token of a type that is not registered and misses no subrule. -/
def Step.Sound (rs : Ruleset) : Step → Prop
  | .enqueue type | .retype _ type => rs.hasType type = true
  | .halt (.fault e) => ∀ name, e.cause ≠ .unknownSubrule name
  | _ => True

variable {rs : Ruleset}

theorem Step.sound_of_own {a : Action} (ha : ∀ type ∈ Ruleset.emitted a, rs.hasType type = true) :
    ∀ s ∈ a.own, s.Sound rs := by
  intro s hs
  cases a with
  | enqueue | retype =>
    rw [Action.own, List.mem_singleton] at hs
    subst hs
    exact ha _ (by simp [Ruleset.emitted])
  | send | changeState | patterns | putBack | clear =>
    rw [Action.own, List.mem_singleton] at hs
    subst hs
    trivial
  | subrule | onLexeme | onScan | sequence => cases hs

section Written

variable {P : Step → Prop} (h : rs.Vetted) (hread : P .nextChar) (hscan : ∀ p, P (.scan p))
  (hexhausted : P (.halt .exhausted))
  (hwritten : ∀ r ∈ rs.rules, ∀ a ∈ r.allActions, ∀ s ∈ a.own, P s)

include h hread hscan hwritten

theorem ruleSteps_written_of {calls : CallSteps}
    (hcalls : ∀ name r, rs.rule? name = some r → ∀ l, l.ruleset = rs →
      ∀ s ∈ calls (.subrule name) l, P s)
    {r : Rule} (hr : r ∈ rs.rules) {l : Lexer} (hl : l.ruleset = rs) :
    ∀ s ∈ r.steps calls l, P s := by
  refine Rule.steps_allowed hread hscan ?_ hl
  intro a ha
  refine ⟨hwritten r hr a ha, ?_⟩
  rintro name rfl
  have hname : name ∈ Ruleset.subruleNames r := List.mem_filterMap.mpr ⟨_, ha, rfl⟩
  obtain ⟨r', hr'⟩ := h.linked r hr name hname
  exact hcalls name r' hr'

include hexhausted

/-- The induction is on the allowance of nested calls. -/
theorem respondSteps_written (n : Nat) (name : String) (r : Rule)
    (hr : rs.rule? name = some r) (l : Lexer) (hl : l.ruleset = rs) :
    ∀ s ∈ respondSteps n (.subrule name) l, P s := by
  induction n generalizing name r l with
  | zero => simpa [respondSteps] using hexhausted
  | succ n ih =>
    rw [respondSteps, hl, hr]
    exact ruleSteps_written_of h hread hscan hwritten ih (Ruleset.mem_of_rule? hr) hl

/-- What holds of the steps that are written in the rules holds of the steps they make: no rule
comes to a halt for want of a subrule. -/
theorem ruleSteps_written {r : Rule} (hr : r ∈ rs.rules) (n : Nat) {l : Lexer}
    (hl : l.ruleset = rs) : ∀ s ∈ r.steps (respondSteps n) l, P s :=
  ruleSteps_written_of h hread hscan hwritten
    (respondSteps_written h hread hscan hexhausted hwritten n) hr hl

end Written

theorem ruleSteps_sound (h : rs.Vetted) {r : Rule} (hr : r ∈ rs.rules) (n : Nat) {l : Lexer}
    (hl : l.ruleset = rs) : ∀ s ∈ r.steps (respondSteps n) l, s.Sound rs :=
  ruleSteps_written h trivial (fun _ => trivial) trivial
    (fun r hr a ha => Step.sound_of_own (h.registered r hr a ha)) hr n hl

variable {l : Lexer} {s : Step}

theorem Step.Sound.found (h : s.Sound rs) (l : Lexer) : Found (s.run l) := by
  apply Step.run_found
  rintro e name rfl
  exact h name

theorem perform_found {xs : List Step} (h : ∀ s ∈ xs, s.Sound rs) (l : Lexer) :
    Found (perform xs l) := by
  induction xs generalizing l with
  | nil => exact found_ok _ _
  | cons s rest ih =>
    rw [List.forall_mem_cons] at h
    exact found_bind (h.1.found l) fun _ l' _ => ih h.2 l'

theorem Step.Sound.lacks (hs : s.Sound rs) {type : TokenType} (ht : rs.hasType type = false)
    (h : l.queue.Lacks type) (hspares : Queue.Spares l.queue.transforms type) :
    (Program.final (s.run l)).queue.Lacks type := by
  have hne : ∀ made, rs.hasType made = true → made ≠ type := by
    rintro made hm rfl
    simp [hm] at ht
  cases s with
  | nextChar =>
    rw [Step.run_nextChar, final_ending, (onEngine_books _ l).queue]
    exact h
  | scan p =>
    rw [Step.run_scan, final_ending, (scanToken_books _ l).queue]
    exact h
  | enqueue made =>
    rw [Step.run_enqueue, final_ending]
    exact enqueueToken_lacks h hspares (hne made hs)
  | unknownToken =>
    rw [Step.run_unknownToken, final_ending, (unknownToken_books l).queue]
    exact h
  | putBack =>
    rw [Step.run, (onEngine_books _ l).queue]
    exact h
  | clear => exact h
  | retype old new =>
    rw [Step.run_retype, final_ending]
    exact h.retype (hne new hs)
  | message name args =>
    rw [Step.run_message, final_ending, (builtIn_books name args l).queue]
    exact h
  | halt stop => exact h

end Lexer
end TableLexer
