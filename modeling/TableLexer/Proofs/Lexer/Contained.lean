import TableLexer.Proofs.Lexer.Allowance
import TableLexer.Proofs.Lexer.Modes
import TableLexer.Proofs.Lexer.Progress

/-!
# Rules that keep to themselves

A rule that calls for no other rule and sends no message but the one for unknown tokens comes to an
end whatever the allowance, gets on, and leaves the lexer in its mode. So a lexer in the mode of
such a rule applies no other rule to the end of its text.
-/
namespace TableLexer

open Program (Relates)
open Lexer

def Rule.Contained (r : Rule) : Prop :=
  ∀ a ∈ r.allActions, (∀ name, a ≠ .subrule name) ∧ ∀ m, a.Sends m → m = "unknown_token"

namespace Lexer

variable {l l' : Lexer}

def Step.Contained (s : Step) : Prop :=
  s ≠ .halt .exhausted ∧ ∀ m args, s = .message m args → m = "unknown_token"

theorem contained_steps {r : Rule} (h : r.Contained) (n : Nat) (l : Lexer) :
    ∀ s ∈ r.steps (respondSteps n) l, s.Contained := by
  refine Rule.steps_allowed (by simp [Step.Contained]) (by simp [Step.Contained]) ?_ rfl
  intro a ha
  constructor
  · intro s hs
    cases a with
    | send | changeState =>
      obtain rfl := List.mem_singleton.mp hs
      refine ⟨by simp, ?_⟩
      rintro m args heq
      cases heq
      exact (h _ ha).2 _ rfl
    | _ => simp_all [Action.own, Step.Contained]
  · intro name heq
    exact absurd heq ((h a ha).1 name)

structure SameCourse (l l' : Lexer) : Prop where
  modes : l'.modes = l.modes
  finished : l'.finished = l.finished

theorem SameCourse.refl (l : Lexer) : SameCourse l l := ⟨rfl, rfl⟩

theorem SameCourse.trans {a b c : Lexer} (h : SameCourse a b) (k : SameCourse b c) :
    SameCourse a c := ⟨k.modes.trans h.modes, k.finished.trans h.finished⟩

theorem SameCourse.withEngine (l : Lexer) (e : Engine) : SameCourse l { l with engine := e } :=
  ⟨rfl, rfl⟩

theorem course_inherited : Inherited (Relates SameCourse) where
  pure _ := fun l => .refl l
  throw _ := fun l => .refl l
  bind hm hf := Relates.bind (R := SameCourse) (fun _ _ _ => SameCourse.trans) hm hf
  get _ hf := fun l => hf l l
  modify _ hmodes _ hfinished := fun l => ⟨hmodes l, hfinished l⟩
  onEngine m := by
    intro l
    unfold Lexer.onEngine
    cases m l.engine <;> exact ⟨rfl, rfl⟩
  onQueue m := by
    intro l
    unfold Lexer.onQueue
    cases m l.queue <;> exact ⟨rfl, rfl⟩

theorem Step.Contained.course {s : Step} (h : s.Contained) : Relates SameCourse s.run := by
  have hother : ∀ m, m ≠ "unknown_token" → ∀ args, s ≠ .message m args :=
    fun m hm args heq => hm (h.2 m args heq)
  exact course_inherited.step (fun args heq => absurd heq (hother _ (by decide) args))
    (fun args heq => absurd heq (hother _ (by decide) args))
    fun args heq => absurd heq (hother _ (by decide) args)

theorem perform_course {xs : List Step} (h : ∀ s ∈ xs, s.Contained) :
    Relates SameCourse (perform xs) := by
  induction xs with
  | nil => exact course_inherited.pure ()
  | cons s rest ih =>
    rw [List.forall_mem_cons] at h
    exact course_inherited.bind h.1.course fun _ => ih h.2

end Lexer

namespace Rule.Contained

variable {r : Rule} {l : Lexer}

theorem course (h : r.Contained) (hops : l.operations = []) (n : Nat) :
    SameCourse l (Program.final (r.run (respond n) l)) := by
  have hp := perform_course (contained_steps h n l) l
  rwa [← Rule.run_eq_perform (respond_answers n) r l hops, final_ending] at hp

theorem flat (h : r.Contained) : Ruleset.subruleNames r = [] := by
  refine List.filterMap_eq_nil_iff.mpr fun a ha => ?_
  cases a with
  | subrule name => exact absurd rfl ((h _ ha).1 name)
  | _ => rfl

theorem applying (h : r.Contained) (hops : l.operations = []) {start : Nat}
    (hl : l.Applying start) (n : Nat) : Kept (Applying start) (r.run (respond n) l) := by
  rw [← kept_ending, Rule.run_eq_perform (respond_answers n) r l hops]
  refine perform_kept (fun s hs l hl => Step.run_applying ?_ hl) hl
  intro args heq
  have hname := (contained_steps h n _ s hs).2 _ args heq
  revert hname
  decide

end Rule.Contained

namespace Lexer

variable {l l' : Lexer}

def InContained (l : Lexer) : Prop :=
  ∀ name r, l.options.ruleFor? l.modes.current = some name → l.ruleset.rule? name = some r →
    r.Contained

theorem applyModeRule_course (hops : l.operations = []) (h : l.InContained) (n : Nat) :
    SameCourse l (Program.final (applyModeRule n l)) :=
  applyModeRule_keeps (.refl l)
    (fun name r hname hr =>
      .trans (b := l.counted) ⟨rfl, rfl⟩ ((h name r hname hr).course (l := l.counted) hops n))
    (fun _ _ ha => ha.trans ⟨rfl, rfl⟩)
    fun rule captured a ha => ha.trans (course_inherited.settle rule l.engine.toMark captured a)

theorem fillStep_course (hops : l.operations = []) (h : l.InContained) (n : Nat) :
    SameCourse l (Program.final (fillStep n l)) :=
  fillStep_keeps (.refl l)
    (fun e _ => (SameCourse.withEngine l e).trans (course_inherited.enqueueIndent _))
    (fun e _ => (SameCourse.withEngine l e).trans (course_inherited.enqueueLineEnd _))
    (fun _ _ => ⟨rfl, rfl⟩)
    fun e _ => (SameCourse.withEngine l e).trans
      (applyModeRule_course (l := { l with engine := e }) hops h n)

theorem InContained.of_course (h : l.InContained) (hframe : SameFrame l l')
    (hcourse : SameCourse l l') : l'.InContained := by
  intro name r
  rw [hframe.options, hframe.ruleset, hcourse.modes]
  exact h name r

theorem InContained.fillStep (h : l.InContained) (hops : l.operations = []) (n : Nat) :
    (Program.final (fillStep n l)).InContained :=
  h.of_course (fillStep_frame n hops) (fillStep_course hops h n)

/-- No rule that will be applied goes back to a snapshot: there is none that does, or the rule of
the current mode keeps to itself. -/
def Onward (l : Lexer) : Prop := l.ruleset.NeverSends "restore_snapshot" ∨ l.InContained

theorem Onward.run_applying {name : String} {r : Rule} {start : Nat} (h : l.Onward)
    (hname : l.options.ruleFor? l.modes.current = some name) (hr : l.ruleset.rule? name = some r)
    (hops : l.operations = []) (hl : l.Applying start) (n : Nat) :
    Kept (Applying start) (r.run (respond n) l) := by
  rcases h with hnever | hin
  · exact Rule.run_applying hnever (Ruleset.mem_of_rule? hr) hops hl n
  · exact (hin name r hname hr).applying hops hl n

theorem Onward.applyModeRule (h : l.Onward) (hops : l.operations = []) (n : Nat) :
    (Program.final (applyModeRule n l)).Onward := by
  have hframe := applyModeRule_frame n hops
  refine h.imp (fun hnever => ?_) fun hin => ?_
  · rw [hframe.ruleset]
    exact hnever
  · exact hin.of_course hframe (applyModeRule_course hops hin n)

end Lexer
end TableLexer
