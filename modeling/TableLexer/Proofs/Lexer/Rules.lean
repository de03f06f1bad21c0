import TableLexer.Proofs.Lexer.Frame

/-!
# Applying a rule performs its steps

On a lexer without registered operations an action, a rule and the answer to a call all amount
to performing the steps listed for them, and every one of these steps is written in a rule of
the ruleset. So a property that the steps of a ruleset keep is kept by its rules.
-/
namespace TableLexer

namespace Lexer

variable {α β : Type}

theorem final_ending (r : EStateM.Result Stop Lexer α) :
    Program.final (ending r) = Program.final r := by
  cases r <;> rfl

theorem ending_bind (m : LexerM α) (f : α → LexerM β) (l : Lexer) :
    ending ((m >>= f) l) = match m l with
      | .ok a l => ending (f a l)
      | .error stop l => .error stop l := by
  rw [Program.bind_apply]
  cases m l <;> rfl

theorem ending_reply (m : LexerM Unit) (b : β) (l : Lexer) :
    ending ((m >>= fun _ => pure b) l) = m l := by
  rw [ending_bind]
  cases m l <;> rfl

theorem run_discarding (m : LexerM α) (l : Lexer) :
    (m >>= fun _ => pure () : LexerM Unit) l = ending (m l) := by
  rw [Program.bind_apply]
  cases m l <;> rfl

@[simp] theorem Step.run_nextChar (l : Lexer) :
    Step.nextChar.run l = ending (onEngine Engine.nextChar l) := run_discarding _ l

@[simp] theorem Step.run_scan (p : Pattern) (l : Lexer) :
    (Step.scan p).run l = ending (scanToken p l) := run_discarding _ l

@[simp] theorem Step.run_enqueue (type : TokenType) (l : Lexer) :
    (Step.enqueue type).run l = ending (enqueueToken type l) := run_discarding _ l

@[simp] theorem Step.run_unknownToken (l : Lexer) :
    Step.unknownToken.run l = ending (Lexer.unknownToken l) := run_discarding _ l

@[simp] theorem Step.run_retype (old new : TokenType) (l : Lexer) :
    (Step.retype old new).run l = ending (retypeLast old new l) := run_discarding _ l

@[simp] theorem Step.run_message (name : String) (args : List Value) (l : Lexer) :
    (Step.message name args).run l = ending (builtIn name args l) := run_discarding _ l

@[simp] theorem perform_single (s : Step) (l : Lexer) : perform [s] l = s.run l := by
  simp only [perform, Program.bind_apply]
  cases s.run l <;> rfl

@[simp] theorem followed_ending (r : EStateM.Result Stop Lexer α) (next : Lexer → List Step) :
    followed (ending r) (fun _ => next) = followed r fun _ => next := by
  cases r <;> rfl

/-- A program and what follows it perform their steps one after the other. -/
theorem perform_followed (xs : List Step) {m : LexerM α} {f : α → LexerM β}
    {next : α → Lexer → List Step} {l : Lexer} (hm : ending (m l) = perform xs l)
    (hf : ∀ a l', SameFrame l l' → ending (f a l') = perform (next a l') l') :
    ending ((m >>= f) l) = perform (xs ++ followed (m l) next) l := by
  rw [ending_bind, perform_append, ← hm]
  cases hr : m l with
  | error stop l' => rfl
  | ok a l' =>
    have hframe := perform_frame xs l
    rw [← hm, hr] at hframe
    exact hf a l' hframe

theorem sendMessage_eq {l : Lexer} (h : l.operations = []) (call : Call → LexerM Reply)
    (message : String) (args : List Value) :
    sendMessage call message args l = builtIn message args l := by
  simp [sendMessage, operation?, h]

end Lexer

open Lexer

def Answers (call : Call → LexerM Reply) (steps : CallSteps) : Prop :=
  ∀ c l, l.operations = [] → ending (call c l) = perform (steps c l) l

variable {call : Call → LexerM Reply} {calls : CallSteps}

namespace Action

theorem runOption_eq_perform {o : Option Action}
    (ih : ∀ a ∈ o, ∀ l, l.operations = [] →
      ending (run call a l) = perform (steps calls a l) l)
    {l : Lexer} (h : l.operations = []) :
    ending (runOption call o l) = perform (stepsOption calls o l) l := by
  cases o with
  | none => simp [runOption, stepsOption, perform, ending]
  | some a =>
    simp only [runOption, stepsOption]
    exact ih a rfl l h

theorem runList_eq_perform {actions : List Action}
    (ih : ∀ a ∈ actions, ∀ l, l.operations = [] →
      ending (run call a l) = perform (steps calls a l) l)
    (last : Reply) {l : Lexer} (h : l.operations = []) :
    ending (runList call last actions l) = perform (stepsList calls actions l) l := by
  induction actions generalizing last l with
  | nil => simp [runList, stepsList, perform, ending]
  | cons a rest ihrest =>
    have ha := ih a List.mem_cons_self l h
    rw [runList, stepsList, ← ha, followed_ending]
    apply perform_followed _ ha
    intro reply l' hl'
    exact ihrest (fun b hb => ih b (List.mem_cons_of_mem _ hb)) reply (hl'.operations.trans h)

theorem runPairs_eq_perform {pairs : List (Pattern × Action)}
    (ih : ∀ pair ∈ pairs, ∀ l, l.operations = [] →
      ending (run call pair.2 l) = perform (steps calls pair.2 l) l)
    (last : Reply) {l : Lexer} (h : l.operations = []) :
    ending (runPairs call last pairs l) = perform (stepsPairs calls pairs l) l := by
  induction pairs generalizing last l with
  | nil => simp [runPairs, stepsPairs, perform, ending]
  | cons pair rest ihrest =>
    obtain ⟨p, a⟩ := pair
    rw [runPairs, stepsPairs]
    apply perform_followed [.scan p] (by simp)
    intro found l₁ hl₁
    have h₁ := hl₁.operations.trans h
    cases found with
    | false => simp
    | true =>
      have ha := ih (p, a) List.mem_cons_self l₁ h₁
      simp only [↓reduceIte]
      rw [← ha, followed_ending]
      apply perform_followed _ ha
      intro reply l' hl'
      exact ihrest (fun b hb => ih b (List.mem_cons_of_mem _ hb)) reply
        (hl'.operations.trans h₁)

theorem run_eq_perform (hc : Answers call calls) (a : Action) (l : Lexer)
    (h : l.operations = []) : ending (run call a l) = perform (steps calls a l) l := by
  induction a generalizing l with
  | enqueue type => simp [run, steps]
  | send message args => simp [run, steps, sendMessage_eq h]
  | subrule name => simpa [run, steps] using hc (.subrule name) l h
  | changeState message state next ih =>
    rw [run, steps, ← sendMessage_eq h call message [.text state]]
    refine perform_followed [.message message [.text state]]
      (by simp [sendMessage_eq h]) ?_
    intro _ l' hl'
    exact ih l' (hl'.operations.trans h)
  | onLexeme p hit miss ihhit ihmiss =>
    simp only [run, steps, Program.bind_apply, Program.get_apply]
    split
    · exact ihhit l h
    · exact runOption_eq_perform ihmiss h
  | onScan p hit miss ihhit ihmiss =>
    rw [run, steps]
    apply perform_followed [.scan p] (by simp)
    intro found l' hl'
    have h' := hl'.operations.trans h
    cases found with
    | true => exact ihhit l' h'
    | false => exact runOption_eq_perform ihmiss h'
  | patterns pairs ih =>
    rw [run, steps]
    exact runPairs_eq_perform ih none h
  | sequence actions ih =>
    rw [run, steps]
    exact runList_eq_perform ih none h
  | putBack =>
    rw [run, steps, ending_reply, perform_single]
    rfl
  | clear =>
    rw [run, steps, ending_reply, perform_single]
    rfl
  | retype old new => simp [run, steps]

end Action

namespace Rule

theorem firstScanned_eq_perform (handlers : List Handler) (l : Lexer) :
    ending (firstScanned handlers l) = perform (scanSteps handlers l) l := by
  induction handlers generalizing l with
  | nil => rfl
  | cons h rest ih =>
    rw [firstScanned, scanSteps]
    apply perform_followed [.scan h.pattern] (by simp)
    intro found l' _
    cases found with
    | true => rfl
    | false => exact ih l'

theorem dispatch_eq_perform (r : Rule) (l : Lexer) :
    ending (r.dispatch l) = perform (r.dispatchSteps l) l := by
  unfold dispatch dispatchSteps
  cases r.kind with
  | standard =>
    simp only [perform_single, Step.run_nextChar, ending_bind]
    cases onEngine Engine.nextChar l <;> rfl
  | lookahead => exact firstScanned_eq_perform r.handlers l

theorem run_eq_perform (hc : Answers call calls) (r : Rule) (l : Lexer)
    (h : l.operations = []) : ending (r.run call l) = perform (r.steps calls l) l := by
  have hb := Action.runOption_eq_perform (o := r.before)
    (fun a _ => Action.run_eq_perform hc a) h
  rw [run, steps, ← hb, followed_ending]
  apply perform_followed _ hb
  intro _ l₁ hl₁
  apply perform_followed _ (dispatch_eq_perform r l₁)
  intro found l₂ hl₂
  have h₂ := hl₂.operations.trans (hl₁.operations.trans h)
  cases found with
  | some h => exact Action.run_eq_perform hc h.action l₂ h₂
  | none => exact Action.run_eq_perform hc r.otherwise l₂ h₂

end Rule

theorem Lexer.respond_answers (n : Nat) : Answers (respond n) (respondSteps n) := by
  induction n with
  | zero => intro c l h; rfl
  | succ n ih =>
    intro c l h
    cases c with
    | subrule name =>
      simp only [respond, respondSteps, Program.bind_apply, Program.get_apply]
      cases l.ruleset.rule? name with
      | some r => exact Rule.run_eq_perform ih r l h
      | none => rfl
    | perform action => exact Action.run_eq_perform ih action l h

def Action.own : Action → List Step
  | enqueue type => [.enqueue type]
  | send message args => [.message message args]
  | changeState message state _ => [.message message [.text state]]
  | patterns _ => [.unknownToken]
  | putBack => [.putBack]
  | clear => [.clear]
  | retype old new => [.retype old new]
  | subrule _ | onLexeme _ _ _ | onScan _ _ _ | sequence _ => []

structure Ruleset.Allows (rs : Ruleset) (P : Step → Prop) : Prop where
  reading : P .nextChar
  scanning : ∀ p, P (.scan p)
  halting : ∀ stop, P (.halt stop)
  written : ∀ r ∈ rs.rules, ∀ a ∈ r.allActions, ∀ s ∈ a.own, P s

theorem Lexer.mem_followed {α : Type} {m : LexerM α} {next : α → Lexer → List Step} {l : Lexer}
    {s : Step} (hm : Program.Relates SameFrame m) (hs : s ∈ followed (m l) next) :
    ∃ a l', l'.ruleset = l.ruleset ∧ s ∈ next a l' := by
  have hframe := hm l
  cases hr : m l with
  | ok a l' =>
    rw [hr] at hs hframe
    exact ⟨a, l', hframe.ruleset, hs⟩
  | error stop l' => simp [hr, followed] at hs

section Vocabulary

variable {rs : Ruleset} {P : Step → Prop}

namespace Action

/-- The property holds of the steps an action makes itself or has another rule make. -/
def Within (calls : CallSteps) (rs : Ruleset) (P : Step → Prop) (a : Action) : Prop :=
  (∀ s ∈ a.own, P s) ∧
    ∀ name, a = subrule name → ∀ l, l.ruleset = rs → ∀ s ∈ calls (.subrule name) l, P s

theorem stepsOption_allowed {o : Option Action}
    (ih : ∀ a ∈ o, (∀ b ∈ a.walk, b.Within calls rs P) →
      ∀ l, l.ruleset = rs → ∀ s ∈ steps calls a l, P s)
    (hw : ∀ b ∈ walkOption o, b.Within calls rs P) {l : Lexer} (hl : l.ruleset = rs) :
    ∀ s ∈ stepsOption calls o l, P s := by
  cases o with
  | none => simp [stepsOption]
  | some a =>
    rw [stepsOption]
    exact ih a rfl hw l hl

theorem stepsList_allowed {actions : List Action}
    (ih : ∀ a ∈ actions, (∀ b ∈ a.walk, b.Within calls rs P) →
      ∀ l, l.ruleset = rs → ∀ s ∈ steps calls a l, P s)
    (hw : ∀ b ∈ walkList actions, b.Within calls rs P) {l : Lexer} (hl : l.ruleset = rs) :
    ∀ s ∈ stepsList calls actions l, P s := by
  induction actions generalizing l with
  | nil => simp [stepsList]
  | cons a rest ihrest =>
    rw [walkList, List.forall_mem_append] at hw
    intro s hs
    rw [stepsList, List.mem_append] at hs
    rcases hs with hs | hs
    · exact ih a List.mem_cons_self hw.1 l hl s hs
    · obtain ⟨_, l', hl', hs⟩ := mem_followed (perform_frame _) hs
      exact ihrest (fun b hb => ih b (List.mem_cons_of_mem _ hb)) hw.2 (hl'.trans hl) s hs

theorem stepsPairs_allowed {pairs : List (Pattern × Action)} (hscan : ∀ p, P (.scan p))
    (hunknown : P .unknownToken)
    (ih : ∀ pair ∈ pairs, (∀ b ∈ walk pair.2, b.Within calls rs P) →
      ∀ l, l.ruleset = rs → ∀ s ∈ steps calls pair.2 l, P s)
    (hw : ∀ b ∈ walkPairs pairs, b.Within calls rs P) {l : Lexer} (hl : l.ruleset = rs) :
    ∀ s ∈ stepsPairs calls pairs l, P s := by
  induction pairs generalizing l with
  | nil => simp [stepsPairs]
  | cons pair rest ihrest =>
    obtain ⟨p, a⟩ := pair
    rw [walkPairs, List.forall_mem_append] at hw
    intro s hs
    rw [stepsPairs, List.mem_cons] at hs
    rcases hs with rfl | hs
    · exact hscan p
    obtain ⟨found, l₁, hl₁, hs⟩ := mem_followed (scanToken_frame p) hs
    cases found with
    | false => simpa using (List.mem_singleton.mp hs) ▸ hunknown
    | true =>
      simp only [↓reduceIte, List.mem_append] at hs
      rcases hs with hs | hs
      · exact ih (p, a) List.mem_cons_self hw.1 l₁ (hl₁.trans hl) s hs
      · obtain ⟨_, l', hl', hs⟩ := mem_followed (perform_frame _) hs
        exact ihrest (fun b hb => ih b (List.mem_cons_of_mem _ hb)) hw.2
          (hl'.trans (hl₁.trans hl)) s hs

/-- The steps of an action are written in it or in the rules it calls for. -/
theorem steps_allowed (hscan : ∀ p, P (.scan p)) (a : Action)
    (hw : ∀ b ∈ a.walk, b.Within calls rs P) (l : Lexer) (hl : l.ruleset = rs) :
    ∀ s ∈ a.steps calls l, P s := by
  induction a generalizing l with
  | enqueue | send | putBack | clear | retype =>
    rw [steps]
    exact (hw _ (by rw [walk]; exact List.mem_singleton_self _)).1
  | subrule name =>
    rw [steps]
    exact (hw _ (by rw [walk]; exact List.mem_singleton_self _)).2 name rfl l hl
  | changeState message state next ih =>
    simp only [walk, List.forall_mem_cons] at hw
    intro s hs
    rw [steps, List.mem_cons] at hs
    rcases hs with rfl | hs
    · exact hw.1.1 _ (by simp [own])
    · obtain ⟨_, l', hl', hs⟩ := mem_followed (builtIn_frame _ _) hs
      exact ih hw.2 l' (hl'.trans hl) s hs
  | onLexeme p hit miss ihhit ihmiss =>
    simp only [walk, List.forall_mem_cons, List.forall_mem_append] at hw
    rw [steps]
    split
    · exact ihhit hw.2.1 l hl
    · exact stepsOption_allowed ihmiss hw.2.2 hl
  | onScan p hit miss ihhit ihmiss =>
    simp only [walk, List.forall_mem_cons, List.forall_mem_append] at hw
    intro s hs
    rw [steps, List.mem_cons] at hs
    rcases hs with rfl | hs
    · exact hscan p
    obtain ⟨found, l', hl', hs⟩ := mem_followed (scanToken_frame p) hs
    cases found with
    | true => exact ihhit hw.2.1 l' (hl'.trans hl) s hs
    | false => exact stepsOption_allowed ihmiss hw.2.2 (hl'.trans hl) s hs
  | patterns pairs ih =>
    simp only [walk, List.forall_mem_cons] at hw
    rw [steps]
    exact stepsPairs_allowed hscan (hw.1.1 _ (by simp [own])) ih hw.2 hl
  | sequence actions ih =>
    simp only [walk, List.forall_mem_cons] at hw
    rw [steps]
    exact stepsList_allowed ih hw.2 hl

end Action

theorem Ruleset.mem_of_rule? {name : String} {r : Rule} (h : rs.rule? name = some r) :
    r ∈ rs.rules := List.mem_of_find?_eq_some h

namespace Rule

theorem scanSteps_allowed (hscan : ∀ p, P (.scan p)) (handlers : List Handler) (l : Lexer) :
    ∀ s ∈ scanSteps handlers l, P s := by
  induction handlers generalizing l with
  | nil => simp [scanSteps]
  | cons h rest ih =>
    intro s hs
    rw [scanSteps, List.mem_cons] at hs
    rcases hs with rfl | hs
    · exact hscan h.pattern
    obtain ⟨found, l', -, hs⟩ := mem_followed (scanToken_frame h.pattern) hs
    cases found with
    | true => cases hs
    | false => exact ih l' s hs

theorem dispatchSteps_allowed (hread : P .nextChar) (hscan : ∀ p, P (.scan p)) (r : Rule)
    (l : Lexer) : ∀ s ∈ r.dispatchSteps l, P s := by
  unfold dispatchSteps
  cases r.kind with
  | standard => simpa using hread
  | lookahead => exact scanSteps_allowed hscan r.handlers l

theorem firstScanned_mem {handlers : List Handler} {l l' : Lexer} {h : Handler}
    (hf : firstScanned handlers l = .ok (some h) l') : h ∈ handlers := by
  induction handlers generalizing l with
  | nil => simp [firstScanned] at hf
  | cons first rest ih =>
    rw [firstScanned, Program.bind_apply] at hf
    cases hr : scanToken first.pattern l with
    | error stop l₁ => simp [hr] at hf
    | ok found l₁ =>
      rw [hr] at hf
      cases found with
      | true =>
        simp only [↓reduceIte, Program.pure_apply, EStateM.Result.ok.injEq,
          Option.some.injEq] at hf
        exact hf.1 ▸ List.mem_cons_self
      | false => exact List.mem_cons_of_mem _ (ih hf)

theorem dispatch_mem {r : Rule} {l l' : Lexer} {h : Handler}
    (hd : r.dispatch l = .ok (some h) l') : h ∈ r.handlers := by
  unfold dispatch at hd
  cases hk : r.kind with
  | standard =>
    simp only [hk, Program.bind_apply] at hd
    cases hn : onEngine Engine.nextChar l with
    | error stop l₁ => simp [hn] at hd
    | ok c l₁ =>
      simp only [hn, Program.pure_apply, EStateM.Result.ok.injEq] at hd
      obtain ⟨c, -, hc⟩ := Option.bind_eq_some_iff.mp hd.1
      exact List.mem_of_find?_eq_some hc
  | lookahead =>
    simp only [hk] at hd
    exact firstScanned_mem hd

theorem chosen_mem {r : Rule} {l l' : Lexer} {found : Option Handler}
    (hd : r.dispatch l = .ok found l') : r.chosen found ∈ r.topActions := by
  cases found with
  | none => simp [chosen, topActions]
  | some h =>
    have hm : h.action ∈ r.handlers.map Handler.action := List.mem_map_of_mem (dispatch_mem hd)
    simp only [chosen, topActions, List.mem_append]
    exact .inl (.inr hm)

/-- The steps of a rule are written in it or in the rules it calls for. -/
theorem steps_allowed (hread : P .nextChar) (hscan : ∀ p, P (.scan p)) {r : Rule}
    (hw : ∀ b ∈ r.allActions, b.Within calls rs P) {l : Lexer} (hl : l.ruleset = rs) :
    ∀ s ∈ r.steps calls l, P s := by
  have top : ∀ a ∈ r.topActions, ∀ l, l.ruleset = rs → ∀ s ∈ a.steps calls l, P s :=
    fun a hta => Action.steps_allowed hscan a fun b hb => hw b (List.mem_flatMap.mpr ⟨a, hta, hb⟩)
  intro s hs
  rw [steps, List.mem_append] at hs
  rcases hs with hs | hs
  · cases hb : r.before with
    | none => simp [hb, Action.stepsOption] at hs
    | some b =>
      rw [hb, Action.stepsOption] at hs
      exact top b (by simp [topActions, hb]) l hl s hs
  · obtain ⟨_, l₁, hl₁, hs⟩ := mem_followed (perform_frame _) hs
    rw [List.mem_append] at hs
    rcases hs with hs | hs
    · exact dispatchSteps_allowed hread hscan r l₁ s hs
    · have hframe := perform_frame (r.dispatchSteps l₁) l₁
      rw [← dispatch_eq_perform] at hframe
      cases hd : r.dispatch l₁ with
      | error stop l₂ => simp [hd, followed] at hs
      | ok found l₂ =>
        rw [hd] at hs hframe
        exact top _ (chosen_mem hd) l₂ (hframe.ruleset.trans (hl₁.trans hl)) s hs

end Rule

theorem Lexer.respondSteps_allowed (ha : rs.Allows P) (n : Nat) (name : String) (l : Lexer)
    (hl : l.ruleset = rs) : ∀ s ∈ respondSteps n (.subrule name) l, P s := by
  induction n generalizing name l with
  | zero => simpa [respondSteps] using ha.halting .exhausted
  | succ n ih =>
    rw [respondSteps]
    cases hr : l.ruleset.rule? name with
    | none => simpa using ha.halting (.fault (.plain (.unknownSubrule name)))
    | some r =>
      rw [hl] at hr
      exact Rule.steps_allowed ha.reading ha.scanning
        (fun b hb => ⟨ha.written r (Ruleset.mem_of_rule? hr) b hb, fun name _ => ih name⟩) hl

/-- What holds of every step a rule set can make, holds of the steps of its rules. -/
theorem Ruleset.Allows.ruleSteps (ha : rs.Allows P) {r : Rule} (hr : r ∈ rs.rules) (n : Nat)
    {l : Lexer} (hl : l.ruleset = rs) : ∀ s ∈ r.steps (respondSteps n) l, P s :=
  Rule.steps_allowed ha.reading ha.scanning
    (fun b hb => ⟨ha.written r hr b hb, fun name _ => respondSteps_allowed ha n name⟩) hl

namespace Lexer

/-- The invariant holds where a program ended, unless it ended in an error that ends the run. -/
def Kept {α : Type} (I : Lexer → Prop) : EStateM.Result Stop Lexer α → Prop
  | .ok _ l => I l
  | .error (.fault e) l => e.kind = .lexical → I l
  | .error .exhausted _ => True

theorem Kept.imp {α : Type} {I J : Lexer → Prop} {r : EStateM.Result Stop Lexer α} (h : Kept I r)
    (hij : I (Program.final r) → J (Program.final r)) : Kept J r := by
  cases r with
  | ok => exact hij h
  | error stop =>
    cases stop with
    | fault => exact fun hk => hij (h hk)
    | exhausted => trivial

theorem kept_ending {α : Type} {I : Lexer → Prop} {r : EStateM.Result Stop Lexer α} :
    Kept I (ending r) ↔ Kept I r := by
  cases r with
  | ok a l => exact Iff.rfl
  | error stop l => cases stop <;> exact Iff.rfl

theorem kept_bind {α β : Type} {I : Lexer → Prop} {m : LexerM α} {f : α → LexerM β} {l : Lexer}
    (hm : Kept I (m l)) (hf : ∀ a l', I l' → Kept I (f a l')) : Kept I ((m >>= f) l) := by
  rw [Program.bind_apply]
  cases hr : m l with
  | ok a l' =>
    rw [hr] at hm
    exact hf a l' hm
  | error stop l' =>
    rw [hr] at hm
    cases stop <;> exact hm

theorem kept_answered {α β : Type} {I : Lexer → Prop} {m : LexerM α} {l : Lexer}
    (hm : Kept I (m l)) (b : β) : Kept I ((m >>= fun _ => pure b) l) := by
  apply kept_bind hm
  intro _ _ hl'
  exact hl'

theorem perform_kept {I : Lexer → Prop} {xs : List Step}
    (hs : ∀ s ∈ xs, ∀ l, I l → Kept I (s.run l)) {l : Lexer} (hl : I l) :
    Kept I (perform xs l) := by
  induction xs generalizing l with
  | nil => exact hl
  | cons s rest ih =>
    apply kept_bind (hs s List.mem_cons_self l hl)
    intro _ _ hl'
    exact ih (fun t ht => hs t (List.mem_cons_of_mem _ ht)) hl'

end Lexer

/-- What every step of a ruleset keeps, its rules keep. -/
theorem Rule.run_kept {I : Lexer → Prop} (ha : rs.Allows P)
    (hs : ∀ s, P s → ∀ l, I l → Kept I (s.run l)) {r : Rule} (hr : r ∈ rs.rules) (n : Nat)
    {l : Lexer} (hops : l.operations = []) (hrs : l.ruleset = rs) (hl : I l) :
    Kept I (r.run (respond n) l) := by
  rw [← kept_ending, Rule.run_eq_perform (respond_answers n) r l hops]
  exact perform_kept (fun s hmem => hs s (ha.ruleSteps hr n hrs s hmem)) hl

end Vocabulary
end TableLexer
