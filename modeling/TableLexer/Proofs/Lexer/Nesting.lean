import TableLexer.Proofs.Lexer.Allowance

/-!
# Rules within rules

The calls for rules that a rule makes when it is applied, each with the lexer it is made on. The
list is complete: a rule comes to an end if every call on it is answered.
-/
namespace TableLexer

open Lexer

namespace Action

mutual

/-- The names of the rules an action calls for on a lexer, each with the lexer as it is then. -/
def calls (call : Call → LexerM Reply) : Action → Lexer → List (String × Lexer)
  | subrule name, l => [(name, l)]
  | changeState message state next, l =>
    match builtIn message [.text state] l with
    | .ok _ l => next.calls call l
    | .error _ _ => []
  | onLexeme p hit miss, l =>
    if p.matchesLexeme l.engine.lexeme then hit.calls call l else callsOption call miss l
  | onScan p hit miss, l =>
    match scanToken p l with
    | .ok found l => if found then hit.calls call l else callsOption call miss l
    | .error _ _ => []
  | patterns pairs, l => callsPairs call pairs l
  | sequence actions, l => callsList call actions l
  | enqueue _, _ | send _ _, _ | putBack, _ | clear, _ | retype _ _, _ => []

def callsOption (call : Call → LexerM Reply) : Option Action → Lexer → List (String × Lexer)
  | none, _ => []
  | some a, l => a.calls call l

def callsPairs (call : Call → LexerM Reply) :
    List (Pattern × Action) → Lexer → List (String × Lexer)
  | [], _ => []
  | (p, a) :: rest, l =>
    match scanToken p l with
    | .ok true l =>
      a.calls call l ++
        match a.run call l with
        | .ok _ l => callsPairs call rest l
        | .error _ _ => []
    | _ => []

def callsList (call : Call → LexerM Reply) : List Action → Lexer → List (String × Lexer)
  | [], _ => []
  | a :: rest, l =>
    a.calls call l ++
      match a.run call l with
      | .ok _ l => callsList call rest l
      | .error _ _ => []

end

end Action

def Rule.calls (call : Call → LexerM Reply) (r : Rule) (l : Lexer) : List (String × Lexer) :=
  Action.callsOption call r.before l ++
    match Action.runOption call r.before l with
    | .ok _ l =>
      match r.dispatch l with
      | .ok found l => (r.chosen found).calls call l
      | .error _ _ => []
    | .error _ _ => []

def Answered (call : Call → LexerM Reply) (entries : List (String × Lexer)) : Prop :=
  ∀ entry ∈ entries, Returned (call (.subrule entry.1) entry.2)

namespace Lexer

variable {α β : Type}

theorem returned_bind_of {m : LexerM α} {f : α → LexerM β} {l : Lexer} (hm : Returned (m l))
    (hf : ∀ a l', m l = .ok a l' → Returned (f a l')) : Returned ((m >>= f) l) := by
  rw [Program.bind_apply]
  cases hr : m l with
  | ok a l' => exact hf a l' hr
  | error stop l' =>
    rw [hr] at hm
    intro l₁ he
    cases he
    exact hm l' rfl

end Lexer

variable {call : Call → LexerM Reply} {steps : CallSteps}

namespace Action

theorem run_frame (hc : Answers call steps) (a : Action) {l : Lexer} (h : l.operations = []) :
    SameFrame l (Program.final (a.run call l)) := by
  rw [← final_ending, run_eq_perform hc a l h]
  exact perform_frame _ l

theorem runOption_frame (hc : Answers call steps) (o : Option Action) {l : Lexer}
    (h : l.operations = []) : SameFrame l (Program.final (runOption call o l)) := by
  cases o with
  | none => exact .refl l
  | some a =>
    rw [runOption]
    exact run_frame hc a h

theorem runOption_returned {o : Option Action}
    (ih : ∀ a ∈ o, ∀ l, l.operations = [] → Answered call (a.calls call l) →
      Returned (run call a l))
    {l : Lexer} (h : l.operations = []) (hans : Answered call (callsOption call o l)) :
    Returned (runOption call o l) := by
  cases o with
  | none => exact returned_ok _ _
  | some a =>
    rw [callsOption] at hans
    rw [runOption]
    exact ih a rfl l h hans

theorem runList_returned (hc : Answers call steps) {actions : List Action}
    (ih : ∀ a ∈ actions, ∀ l, l.operations = [] → Answered call (a.calls call l) →
      Returned (run call a l))
    (last : Reply) {l : Lexer} (h : l.operations = [])
    (hans : Answered call (callsList call actions l)) :
    Returned (runList call last actions l) := by
  induction actions generalizing last l with
  | nil =>
    rw [runList]
    exact returned_ok _ _
  | cons a rest ihrest =>
    unfold callsList Answered at hans
    rw [List.forall_mem_append] at hans
    rw [runList]
    apply returned_bind_of (ih a List.mem_cons_self l h hans.1)
    intro reply l' hr
    have hframe := run_frame hc a h
    rw [hr] at hframe hans
    exact ihrest (fun b hb => ih b (List.mem_cons_of_mem _ hb)) reply
      (hframe.operations.trans h) hans.2

theorem runPairs_returned (hc : Answers call steps) {pairs : List (Pattern × Action)}
    (ih : ∀ pair ∈ pairs, ∀ l, l.operations = [] → Answered call (calls call pair.2 l) →
      Returned (run call pair.2 l))
    (last : Reply) {l : Lexer} (h : l.operations = [])
    (hans : Answered call (callsPairs call pairs l)) :
    Returned (runPairs call last pairs l) := by
  induction pairs generalizing last l with
  | nil =>
    rw [runPairs]
    exact returned_ok _ _
  | cons pair rest ihrest =>
    obtain ⟨p, a⟩ := pair
    have hscan := scanToken_frame p l
    rw [runPairs]
    apply returned_bind_of (scanToken_returned p l)
    intro found l₁ hfound
    rw [hfound] at hscan
    cases found with
    | false => exact unknownToken_returned l₁
    | true =>
      have h₁ : l₁.operations = [] := hscan.operations.trans h
      unfold callsPairs Answered at hans
      rw [hfound] at hans
      simp only [List.forall_mem_append] at hans
      apply returned_bind_of (ih (p, a) List.mem_cons_self l₁ h₁ hans.1)
      intro reply l' hr
      have hr : run call a l₁ = .ok reply l' := hr
      have hframe := run_frame hc a h₁
      rw [hr] at hframe hans
      exact ihrest (fun b hb => ih b (List.mem_cons_of_mem _ hb)) reply
        (hframe.operations.trans h₁) hans.2

/-- An action comes to an end if the rules it calls for do. -/
theorem run_returned (hc : Answers call steps) (a : Action) (l : Lexer)
    (h : l.operations = []) (hans : Answered call (a.calls call l)) :
    Returned (a.run call l) := by
  induction a generalizing l with
  | enqueue type =>
    rw [run]
    exact enqueueToken_returned type l
  | send message args =>
    rw [run, sendMessage_eq h]
    exact builtIn_returned message args l
  | subrule name =>
    rw [run]
    exact hans (name, l) (by simp [calls])
  | changeState message state next ih =>
    have hframe := builtIn_frame message [.text state] l
    rw [run]
    refine returned_bind_of ?_ ?_
    · rw [sendMessage_eq h]
      exact builtIn_returned _ _ l
    · intro _ l' hr
      rw [sendMessage_eq h] at hr
      rw [hr] at hframe
      rw [calls, hr] at hans
      exact ih l' (hframe.operations.trans h) hans
  | onLexeme p hit miss ihhit ihmiss =>
    rw [calls] at hans
    simp only [run, Program.bind_apply, Program.get_apply]
    split
    · next hm =>
      rw [if_pos hm] at hans
      exact ihhit l h hans
    · next hm =>
      rw [if_neg hm] at hans
      exact runOption_returned ihmiss h hans
  | onScan p hit miss ihhit ihmiss =>
    have hframe := scanToken_frame p l
    rw [run]
    apply returned_bind_of (scanToken_returned p l)
    intro found l' hfound
    rw [hfound] at hframe
    rw [calls, hfound] at hans
    have h' := hframe.operations.trans h
    cases found with
    | true => exact ihhit l' h' hans
    | false => exact runOption_returned ihmiss h' hans
  | patterns pairs ih =>
    rw [calls] at hans
    rw [run]
    exact runPairs_returned hc ih none h hans
  | sequence actions ih =>
    rw [calls] at hans
    rw [run]
    exact runList_returned hc ih none h hans
  | putBack =>
    rw [run]
    exact returned_answered (onEngine_returned _ l) none
  | clear =>
    rw [run]
    exact returned_ok _ _
  | retype old new =>
    rw [run]
    exact returned_ok _ _

end Action

theorem Rule.firstScanned_returned (handlers : List Handler) (l : Lexer) :
    Returned (firstScanned handlers l) := by
  induction handlers generalizing l with
  | nil => exact returned_ok _ _
  | cons h rest ih =>
    apply returned_bind (scanToken_returned h.pattern l)
    intro found l'
    cases found with
    | true => exact returned_ok _ _
    | false => exact ih l'

theorem Rule.dispatch_returned (r : Rule) (l : Lexer) : Returned (r.dispatch l) := by
  unfold dispatch
  cases r.kind with
  | standard => exact returned_bind (onEngine_returned _ l) fun _ _ => returned_ok _ _
  | lookahead => exact firstScanned_returned r.handlers l

/-- A rule comes to an end if the rules it calls for do. -/
theorem Rule.run_returned (hc : Answers call steps) (r : Rule) {l : Lexer}
    (h : l.operations = []) (hans : Answered call (r.calls call l)) :
    Returned (r.run call l) := by
  unfold calls Answered at hans
  rw [List.forall_mem_append] at hans
  refine returned_bind_of
    (Action.runOption_returned (fun a _ => Action.run_returned hc a) h hans.1) ?_
  intro _ l₁ hbefore
  have h₁ := Action.runOption_frame hc r.before h
  rw [hbefore] at h₁ hans
  refine returned_bind_of (dispatch_returned r l₁) ?_
  intro found l₂ hfound
  have h₂ := perform_frame (r.dispatchSteps l₁) l₁
  rw [← dispatch_eq_perform, final_ending, hfound] at h₂
  have hops := h₂.operations.trans (h₁.operations.trans h)
  have hans₂ := hans.2
  simp only [hfound] at hans₂
  cases found with
  | some handler => exact Action.run_returned hc handler.action l₂ hops hans₂
  | none => exact Action.run_returned hc r.otherwise l₂ hops hans₂

namespace Action

def Named (l : Lexer) (actions : List Action) (entries : List (String × Lexer)) : Prop :=
  ∀ entry ∈ entries, subrule entry.1 ∈ actions ∧ SameFrame l entry.2

theorem Named.nil (l : Lexer) (actions : List Action) : Named l actions [] := by
  simp [Named]

theorem Named.mono {l : Lexer} {actions actions' : List Action} {entries : List (String × Lexer)}
    (h : Named l actions entries) (hsub : actions ⊆ actions') : Named l actions' entries :=
  fun entry he => ⟨hsub (h entry he).1, (h entry he).2⟩

theorem Named.later {l l' : Lexer} {actions : List Action} {entries : List (String × Lexer)}
    (h : Named l' actions entries) (hframe : SameFrame l l') : Named l actions entries :=
  fun entry he => ⟨(h entry he).1, hframe.trans (h entry he).2⟩

theorem Named.append {l : Lexer} {xs ys : List Action} {entries entries' : List (String × Lexer)}
    (h : Named l xs entries) (k : Named l ys entries') :
    Named l (xs ++ ys) (entries ++ entries') := by
  unfold Named
  rw [List.forall_mem_append]
  exact ⟨h.mono (List.subset_append_left xs ys), k.mono (List.subset_append_right xs ys)⟩

theorem callsOption_named {o : Option Action}
    (ih : ∀ a ∈ o, ∀ l, l.operations = [] → Named l a.walk (a.calls call l))
    {l : Lexer} (h : l.operations = []) : Named l (walkOption o) (callsOption call o l) := by
  cases o with
  | none => exact .nil l _
  | some a =>
    rw [walkOption, callsOption]
    exact ih a rfl l h

theorem callsList_named (hc : Answers call steps) {actions : List Action}
    (ih : ∀ a ∈ actions, ∀ l, l.operations = [] → Named l a.walk (a.calls call l))
    {l : Lexer} (h : l.operations = []) :
    Named l (walkList actions) (callsList call actions l) := by
  induction actions generalizing l with
  | nil => exact .nil l _
  | cons a rest ihrest =>
    have hframe := run_frame hc a h
    rw [walkList, callsList]
    refine .append (ih a List.mem_cons_self l h) ?_
    cases hr : a.run call l with
    | error stop l' => exact .nil l _
    | ok reply l' =>
      rw [hr] at hframe
      exact .later (ihrest (fun b hb => ih b (List.mem_cons_of_mem _ hb))
        (hframe.operations.trans h)) hframe

theorem callsPairs_named (hc : Answers call steps) {pairs : List (Pattern × Action)}
    (ih : ∀ pair ∈ pairs, ∀ l, l.operations = [] → Named l (walk pair.2) (calls call pair.2 l))
    {l : Lexer} (h : l.operations = []) : Named l (walkPairs pairs) (callsPairs call pairs l) := by
  induction pairs generalizing l with
  | nil => exact .nil l _
  | cons pair rest ihrest =>
    obtain ⟨p, a⟩ := pair
    have hscan := scanToken_frame p l
    rw [walkPairs, callsPairs]
    split
    · next l₁ hfound =>
      rw [hfound] at hscan
      have h₁ : l₁.operations = [] := hscan.operations.trans h
      have hframe := run_frame hc a h₁
      refine .later (.append (ih (p, a) List.mem_cons_self l₁ h₁) ?_) hscan
      cases hr : a.run call l₁ with
      | error stop l' => exact .nil l₁ _
      | ok reply l' =>
        rw [hr] at hframe
        exact .later (ihrest (fun b hb => ih b (List.mem_cons_of_mem _ hb))
          (hframe.operations.trans h₁)) hframe
    · exact .nil l _

theorem calls_named (hc : Answers call steps) (a : Action) (l : Lexer) (h : l.operations = []) :
    Named l a.walk (a.calls call l) := by
  induction a generalizing l with
  | enqueue | send | putBack | clear | retype => exact .nil l _
  | subrule name =>
    intro entry he
    rw [calls, List.mem_singleton] at he
    subst he
    exact ⟨List.mem_singleton_self _, .refl l⟩
  | changeState message state next ih =>
    have hframe := builtIn_frame message [.text state] l
    rw [walk, calls]
    split
    · next l' hr =>
      rw [hr] at hframe
      exact ((ih l' (hframe.operations.trans h)).later hframe).mono (List.subset_cons_self _ _)
    · exact .nil l _
  | onLexeme p hit miss ihhit ihmiss =>
    rw [walk, calls]
    split
    · exact (ihhit l h).mono fun _ hb => List.mem_cons_of_mem _ (List.mem_append_left _ hb)
    · exact (callsOption_named ihmiss h).mono fun _ hb =>
        List.mem_cons_of_mem _ (List.mem_append_right _ hb)
  | onScan p hit miss ihhit ihmiss =>
    have hframe := scanToken_frame p l
    rw [walk, calls]
    split
    · next found l' hr =>
      rw [hr] at hframe
      have h' : l'.operations = [] := hframe.operations.trans h
      cases found with
      | true =>
        exact ((ihhit l' h').later hframe).mono fun _ hb =>
          List.mem_cons_of_mem _ (List.mem_append_left _ hb)
      | false =>
        exact ((callsOption_named ihmiss h').later hframe).mono fun _ hb =>
          List.mem_cons_of_mem _ (List.mem_append_right _ hb)
    · exact .nil l _
  | patterns pairs ih =>
    rw [walk, calls]
    exact (callsPairs_named hc ih h).mono (List.subset_cons_self _ _)
  | sequence actions ih =>
    rw [walk, calls]
    exact (callsList_named hc ih h).mono (List.subset_cons_self _ _)

end Action

theorem Rule.mem_calls (hc : Answers call steps) (r : Rule) {l : Lexer} (h : l.operations = [])
    {entry : String × Lexer} (he : entry ∈ r.calls call l) :
    entry.1 ∈ Ruleset.subruleNames r ∧ SameFrame l entry.2 := by
  have named : ∀ a ∈ r.topActions, ∀ l', SameFrame l l' → entry ∈ a.calls call l' →
      entry.1 ∈ Ruleset.subruleNames r ∧ SameFrame l entry.2 := by
    intro a ha l' hframe he
    obtain ⟨hname, hentry⟩ := Action.calls_named hc a l' (hframe.operations.trans h) entry he
    refine ⟨List.mem_filterMap.mpr ⟨_, List.mem_flatMap.mpr ⟨a, ha, hname⟩, rfl⟩, ?_⟩
    exact hframe.trans hentry
  rw [calls, List.mem_append] at he
  rcases he with he | he
  · cases hb : r.before with
    | none =>
      rw [hb, Action.callsOption] at he
      cases he
    | some a =>
      rw [hb, Action.callsOption] at he
      exact named a (by simp [topActions, hb]) l (.refl l) he
  · have h₁ := Action.runOption_frame hc r.before h
    split at he
    · next l₁ hbefore =>
      rw [hbefore] at h₁
      have h₂ := perform_frame (r.dispatchSteps l₁) l₁
      rw [← dispatch_eq_perform, final_ending] at h₂
      split at he
      · next found l₂ hfound =>
        rw [hfound] at h₂
        exact named _ (chosen_mem hfound) l₂ (h₁.trans h₂) he
      · cases he
    · cases he

end TableLexer
