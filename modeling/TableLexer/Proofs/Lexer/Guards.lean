import TableLexer.Proofs.Engine.Remaining
import TableLexer.Proofs.Lexer.Modes
import TableLexer.Proofs.Lexer.Nesting

/-!
# What guards are worth

The search for cycles goes by guards: whether input is known to be consumed where an action calls
for a rule. A guard is right about a rule that hides no return to a snapshot or put-back behind a
state, as long as the rule and those it calls for stay ahead of where they were entered.
-/
namespace TableLexer

open Lexer

namespace Lexer

def Step.Rewinds : Step → Prop
  | .putBack => True
  | .message name _ => Action.rewinds name = true
  | _ => False

variable {l l' : Lexer}

theorem onEngine_toGo {α : Type} {m : EngineM α}
    (h : (Program.final (m l.engine)).toGo ≤ l.engine.toGo) :
    (Program.final (onEngine m l)).engine.toGo ≤ l.engine.toGo := by
  unfold onEngine
  cases hr : m l.engine with
  | ok a e =>
    rw [hr] at h
    exact h
  | error fault e =>
    rw [hr] at h
    exact h

theorem scanToken_toGo (p : Pattern) (l : Lexer) :
    (Program.final (scanToken p l)).engine.toGo ≤ l.engine.toGo := by
  have h := onEngine_toGo (Engine.scan_toGo p l.engine)
  rw [scanToken, Program.bind_apply]
  cases hr : onEngine (Engine.scan p) l with
  | ok o l' =>
    rw [hr] at h
    exact h
  | error stop l' =>
    rw [hr] at h
    exact h

theorem scanToken_found_toGo {p : Pattern} (hp : p.Consumes) (hm : p.matchesEmpty = false)
    (h : scanToken p l = .ok true l') : l'.engine.toGo < l.engine.toGo := by
  obtain ⟨o, hs, ho⟩ := scanToken_eq_ok h
  rw [ho.mp rfl] at hs
  exact Engine.scan_token_toGo hp hm hs

theorem enqueueToken_toGo (type : TokenType) (l : Lexer) :
    (Program.final (enqueueToken type l)).engine.toGo ≤ l.engine.toGo := by
  have h := Nat.le_of_eq (Engine.recognizedNow_toGo l.engine)
  rw [enqueueToken_eq]
  split
  · exact Nat.le_refl _
  · dsimp only
    split <;> exact h

theorem unknownToken_toGo (l : Lexer) :
    (Program.final (unknownToken l)).engine.toGo ≤ l.engine.toGo := by
  have hn := Engine.nextChar_toGo l.engine
  rw [unknownToken_eq]
  dsimp only
  split
  · exact Nat.le_refl _
  · exact Nat.le_refl _
  · split
    · split
      · next h =>
        rw [h] at hn
        exact hn
      · next h =>
        rw [h] at hn
        exact Nat.le_trans (Engine.failedNow_toGo _) hn
      · next h =>
        rw [h] at hn
        exact hn
    · exact Engine.failedNow_toGo _

theorem unknownToken_at_end {p : Pattern} {reply : Reply} {l₁ : Lexer}
    (hs : scanToken p l = .ok false l₁) (hu : unknownToken l₁ = .ok reply l') :
    l'.engine.toGo < l.engine.toGo := by
  have hle := scanToken_toGo p l
  obtain ⟨o, hscan, -⟩ := scanToken_eq_ok hs
  rw [hs, Program.final_ok] at hle
  rw [unknownToken_eq] at hu
  dsimp only at hu
  split at hu
  · next hdone =>
    cases hu
    exact Engine.scan_ends_toGo hscan (by rw [hdone]; rfl)
  · cases hu
  · split at hu
    · split at hu
      · next h =>
        cases hu
        exact Nat.lt_of_lt_of_le (Engine.nextChar_toGo_lt h) hle
      · cases hu
      · cases hu
    · cases hu

theorem builtIn_toGo {message : String} (hm : Action.rewinds message = false) (args : List Value)
    (l : Lexer) : (Program.final (builtIn message args l)).engine.toGo ≤ l.engine.toGo := by
  have hengine : ∀ {α : Type} {m : EngineM α},
      (Program.final (m l.engine)).toGo ≤ l.engine.toGo →
      (Program.final ((do let _ ← onEngine m; return none : LexerM Reply) l)).engine.toGo ≤
        l.engine.toGo := by
    intro α m hle
    have h := onEngine_toGo (m := m) hle
    rw [← final_ending, ending_bind]
    cases hr : onEngine m l <;> rw [hr] at h <;> exact h
  by_cases hmodes : message ∈ ["set_mode", "push_mode", "pop_mode"]
  · refine Nat.le_of_eq ?_
    rw [modeMessage_modesOnly message args hmodes l]
  · unfold builtIn
    split
    · exact unknownToken_toGo l
    · exact hengine (Engine.nextChar_toGo l.engine)
    · exact Nat.le_refl _
    · cases hm
    · exact Nat.le_refl _
    · cases hm
    · exact Nat.le_refl _
    · exact absurd (by simp) hmodes
    · exact absurd (by simp) hmodes
    · exact absurd (by simp) hmodes
    · exact Nat.le_refl _

/-- Only steps that rewind add to what is left to do. -/
theorem Step.run_toGo {s : Step} (hs : ¬ s.Rewinds) (l : Lexer) :
    (Program.final (s.run l)).engine.toGo ≤ l.engine.toGo := by
  cases s with
  | nextChar =>
    rw [Step.run_nextChar, final_ending]
    exact onEngine_toGo (Engine.nextChar_toGo l.engine)
  | scan p =>
    rw [Step.run_scan, final_ending]
    exact scanToken_toGo p l
  | enqueue type =>
    rw [Step.run_enqueue, final_ending]
    exact enqueueToken_toGo type l
  | unknownToken =>
    rw [Step.run_unknownToken, final_ending]
    exact unknownToken_toGo l
  | putBack => exact absurd trivial hs
  | clear => exact Nat.le_refl _
  | retype old new => exact Nat.le_refl _
  | message name args =>
    rw [Step.run_message, final_ending]
    exact builtIn_toGo (by simpa [Step.Rewinds] using hs) args l
  | halt stop => exact Nat.le_refl _

def Ahead (limit : Nat) : List Step → Lexer → Prop
  | [], l => l.engine.toGo ≤ limit
  | s :: rest, l =>
    l.engine.toGo ≤ limit ∧
      match s.run l with
      | .ok _ l => Ahead limit rest l
      | .error _ l => l.engine.toGo ≤ limit

variable {limit : Nat}

theorem Ahead.start {steps : List Step} (h : Ahead limit steps l) :
    l.engine.toGo ≤ limit := by
  cases steps with
  | nil => exact h
  | cons s rest => exact h.1

theorem Ahead.next {s : Step} {rest : List Step} (h : Ahead limit (s :: rest) l)
    (hs : s.run l = .ok () l') : Ahead limit rest l' := by
  have hrest := h.2
  rwa [hs] at hrest

theorem Ahead.left {xs ys : List Step} (h : Ahead limit (xs ++ ys) l) : Ahead limit xs l := by
  induction xs generalizing l with
  | nil => exact h.start
  | cons s rest ih =>
    refine ⟨h.1, ?_⟩
    have hrest := h.2
    cases hs : s.run l with
    | ok _ l' =>
      rw [hs] at hrest
      exact ih hrest
    | error stop l' =>
      rw [hs] at hrest
      exact hrest

theorem Ahead.right {xs ys : List Step} (h : Ahead limit (xs ++ ys) l)
    (hx : perform xs l = .ok () l') : Ahead limit ys l' := by
  induction xs generalizing l with
  | nil =>
    cases hx
    exact h
  | cons s rest ih =>
    have hrest := h.2
    rw [perform, Program.bind_apply] at hx
    cases hs : s.run l with
    | ok _ l₁ =>
      rw [hs] at hrest hx
      exact ih hrest hx
    | error stop l₁ =>
      rw [hs] at hx
      cases hx

theorem Ahead.final {steps : List Step} (h : Ahead limit steps l) :
    (Program.final (perform steps l)).engine.toGo ≤ limit := by
  induction steps generalizing l with
  | nil => exact h
  | cons s rest ih =>
    have hrest := h.2
    rw [perform, Program.bind_apply]
    cases hs : s.run l with
    | ok _ l' =>
      rw [hs] at hrest
      exact ih hrest
    | error stop l' =>
      rw [hs] at hrest
      exact hrest

theorem ahead_of_onward {steps : List Step} (h : ∀ s ∈ steps, ¬ s.Rewinds)
    (hl : l.engine.toGo ≤ limit) : Ahead limit steps l := by
  induction steps generalizing l with
  | nil => exact hl
  | cons s rest ih =>
    rw [List.forall_mem_cons] at h
    have hstep := Nat.le_trans (s.run_toGo h.1 l) hl
    refine ⟨hl, ?_⟩
    cases hs : s.run l with
    | ok _ l' =>
      rw [hs] at hstep
      exact ih h.2 hstep
    | error stop l' =>
      rw [hs] at hstep
      exact hstep

/-- What the search for cycles finds out of a part of a rule, the rules that may be entered
unguarded and whether there is a guard afterwards, is right: every call is made with at most the
limit left to do, and with less if it is guarded; and there is less if there is a guard. -/
structure Watched (limit : Nat) (found : List String × Bool) (entries : List (String × Lexer))
    (r : EStateM.Result Stop Lexer Reply) : Prop where
  entered : ∀ entry ∈ entries, entry.2.engine.toGo ≤ limit ∧
    (entry.1 ∈ found.1 ∨ entry.2.engine.toGo < limit)
  guard : ∀ reply l, r = .ok reply l → found.2 = true → l.engine.toGo < limit

namespace Watched

variable {found found' : List String × Bool} {entries entries' : List (String × Lexer)}
variable {r r' : EStateM.Result Stop Lexer Reply}

theorem mono (h : Watched limit found entries r) (hnames : found.1 ⊆ found'.1)
    (hguard : found'.2 = true → found.2 = true) : Watched limit found' entries r where
  entered entry he := ⟨(h.entered entry he).1, (h.entered entry he).2.imp_left (@hnames entry.1)⟩
  guard reply l hr hg := h.guard reply l hr (hguard hg)

theorem quiet {names : List String} {g : Bool}
    (h : ∀ reply l, r = .ok reply l → g = true → l.engine.toGo < limit) :
    Watched limit (names, g) [] r := ⟨by simp, h⟩

theorem onward {names : List String} {g : Bool}
    (hle : (Program.final r).engine.toGo ≤ l.engine.toGo)
    (hg : g = true → l.engine.toGo < limit) : Watched limit (names, g) [] r := by
  apply quiet
  rintro reply l' rfl hguard
  exact Nat.lt_of_le_of_lt hle (hg hguard)

theorem error {stop : Stop} {l : Lexer} :
    Watched limit found [] (.error stop l) := ⟨by simp, by simp⟩

theorem append (h : Watched limit found entries r)
    (k : Watched limit found' entries' r') :
    Watched limit (found.1 ++ found'.1, found'.2) (entries ++ entries') r' where
  entered := by
    rw [List.forall_mem_append]
    constructor
    · intro entry he
      exact ⟨(h.entered entry he).1, (h.entered entry he).2.imp_left (List.mem_append_left _)⟩
    · intro entry he
      exact ⟨(k.entered entry he).1, (k.entered entry he).2.imp_left (List.mem_append_right _)⟩
  guard := k.guard

end Watched

end Lexer

namespace Action

def scanned : Action → List Pattern
  | onScan p _ _ => [p]
  | patterns pairs => pairs.map Prod.fst
  | _ => []

/-- The action rewinds by a message that carries a state, which lifts no guard. -/
def HidesRewind : Action → Prop
  | changeState message _ _ => rewinds message = true
  | _ => False

instance : DecidablePred HidesRewind
  | changeState message _ _ => inferInstanceAs (Decidable (rewinds message = true))
  | enqueue _ | send _ _ | subrule _ | onLexeme _ _ _ | onScan _ _ _ | patterns _ | sequence _
  | putBack | clear | retype _ _ => isFalse id

/-- The action hides no return, and consumes where the search for cycles takes it to. -/
structure Honest (a : Action) : Prop where
  hidesNothing : ¬ a.HidesRewind
  consumes : ∀ p ∈ a.scanned, p.Consumes

end Action

def Forward (call : Call → LexerM Reply) (entries : List (String × Lexer)) : Prop :=
  ∀ entry ∈ entries, ∀ reply l, call (.subrule entry.1) entry.2 = .ok reply l →
    l.engine.toGo ≤ entry.2.engine.toGo

section Guarded

variable {call : Call → LexerM Reply} {calls : CallSteps} {limit : Nat}

theorem Lexer.perform_of_ok {α : Type} {r : EStateM.Result Stop Lexer α} {steps : List Step}
    {l l' : Lexer} {a : α} (h : ending r = perform steps l) (hr : r = .ok a l') :
    perform steps l = .ok () l' := by
  rw [← h, hr]
  rfl

namespace Action

def IsWatched (call : Call → LexerM Reply) (calls : CallSteps) (limit : Nat) (a : Action) : Prop :=
  ∀ (g : Bool) (l : Lexer), l.operations = [] → (∀ b ∈ a.walk, b.Honest) →
    Ahead limit (a.steps calls l) l → Forward call (a.calls call l) →
    (g = true → l.engine.toGo < limit) →
    Watched limit (a.unguarded g) (a.calls call l) (a.run call l)

theorem watchedOption {o : Option Action} (ih : ∀ a ∈ o, IsWatched call calls limit a) (g : Bool)
    {l : Lexer} (hops : l.operations = []) (hh : ∀ b ∈ walkOption o, b.Honest)
    (hw : Ahead limit (stepsOption calls o l) l) (hf : Forward call (callsOption call o l))
    (hg : g = true → l.engine.toGo < limit) :
    Watched limit (unguardedOption g o) (callsOption call o l) (runOption call o l) := by
  cases o with
  | none =>
    rw [unguardedOption, callsOption, runOption]
    exact .onward (Nat.le_refl _) hg
  | some a =>
    rw [stepsOption] at hw
    rw [callsOption] at hf
    rw [unguardedOption, callsOption, runOption]
    exact ih a rfl g l hops hh hw hf hg

theorem watchedList (hc : Answers call calls) {actions : List Action}
    (ih : ∀ a ∈ actions, IsWatched call calls limit a) (g : Bool) (last : Reply) {l : Lexer}
    (hops : l.operations = []) (hh : ∀ b ∈ walkList actions, b.Honest)
    (hw : Ahead limit (stepsList calls actions l) l)
    (hf : Forward call (callsList call actions l)) (hg : g = true → l.engine.toGo < limit) :
    Watched limit (unguardedList g actions) (callsList call actions l)
      (runList call last actions l) := by
  induction actions generalizing g last l with
  | nil =>
    rw [unguardedList, callsList, runList]
    exact .onward (Nat.le_refl _) hg
  | cons a rest ihrest =>
    rw [walkList, List.forall_mem_append] at hh
    rw [stepsList] at hw
    rw [callsList, Forward, List.forall_mem_append] at hf
    have ha := ih a List.mem_cons_self g l hops hh.1 hw.left hf.1 hg
    have hframe := run_frame hc a hops
    have hsteps := run_eq_perform hc a l hops
    rw [unguardedList, callsList, runList, Program.bind_apply]
    cases hr : a.run call l with
    | error stop l' =>
      rw [hr] at ha
      exact ha.append .error
    | ok reply l' =>
      rw [hr] at ha hframe hf
      have hperform := perform_of_ok hsteps hr
      have hrest := hw.right hperform
      rw [hperform] at hrest
      exact ha.append (ihrest (fun b hb => ih b (List.mem_cons_of_mem _ hb)) _ reply
        (hframe.operations.trans hops) hh.2 hrest hf.2 (ha.guard reply l' rfl))

theorem ahead_scanned {p : Pattern} {next : Bool → Lexer → List Step} {found : Bool}
    {l l' : Lexer} (h : Ahead limit (.scan p :: followed (scanToken p l) next) l)
    (hs : scanToken p l = .ok found l') :
    l'.operations = l.operations ∧ l'.engine.toGo ≤ l.engine.toGo ∧
      Ahead limit (next found l') l' := by
  have hframe := scanToken_frame p l
  have hle := scanToken_toGo p l
  have hstep : (Step.scan p).run l = .ok () l' := by
    rw [Step.run_scan, hs]
    rfl
  have hnext := h.next hstep
  rw [hs] at hframe hle hnext
  exact ⟨hframe.operations, hle, hnext⟩

/-- A scan puts up a guard if its pattern does not match the empty text. -/
theorem guard_scanned {p : Pattern} (hp : p.Consumes) {g : Bool} {l l' : Lexer}
    (hlimit : l.engine.toGo ≤ limit) (hg : g = true → l.engine.toGo < limit)
    (hs : scanToken p l = .ok true l') :
    (g || !p.matchesEmpty) = true → l'.engine.toGo < limit := by
  have hle := scanToken_toGo p l
  rw [hs, Program.final_ok] at hle
  intro hguard
  rcases Bool.or_eq_true_iff.mp hguard with hg' | hm
  · exact Nat.lt_of_le_of_lt hle (hg hg')
  · exact Nat.lt_of_lt_of_le (scanToken_found_toGo hp (by simpa using hm) hs) hlimit

theorem watchedPairs (hc : Answers call calls) {pairs : List (Pattern × Action)}
    (ih : ∀ pair ∈ pairs, IsWatched call calls limit pair.2)
    (hp : ∀ pair ∈ pairs, pair.1.Consumes) (g : Bool) (last : Reply) {l : Lexer}
    (hops : l.operations = []) (hh : ∀ b ∈ walkPairs pairs, b.Honest)
    (hw : Ahead limit (stepsPairs calls pairs l) l)
    (hf : Forward call (callsPairs call pairs l)) (hg : g = true → l.engine.toGo < limit) :
    Watched limit (unguardedPairs g pairs) (callsPairs call pairs l)
      (runPairs call last pairs l) := by
  induction pairs generalizing g last l with
  | nil =>
    rw [unguardedPairs, callsPairs, runPairs]
    exact .onward (Nat.le_refl _) hg
  | cons pair rest ihrest =>
    obtain ⟨p, a⟩ := pair
    rw [walkPairs, List.forall_mem_append] at hh
    rw [stepsPairs] at hw
    have hlimit := hw.start
    have hpattern := hp (p, a) List.mem_cons_self
    rw [callsPairs] at hf
    rw [unguardedPairs, callsPairs, runPairs, Program.bind_apply]
    cases hs : scanToken p l with
    | error stop l₁ => exact .error
    | ok found l₁ =>
      obtain ⟨hsame, hle, hw₁⟩ := ahead_scanned hw hs
      have hops₁ := hsame.trans hops
      rw [hs] at hf
      cases found with
      | false =>
        -- the rest of the pairs is never reached, but only the end of the text gets past here
        apply Watched.quiet
        intro reply l' hu _
        exact Nat.lt_of_lt_of_le (unknownToken_at_end hs hu) hlimit
      | true =>
        simp only [↓reduceIte] at hw₁
        simp only [Forward, List.forall_mem_append] at hf
        have hguard := guard_scanned hpattern hlimit hg hs
        have ha := ih (p, a) List.mem_cons_self _ l₁ hops₁ hh.1 hw₁.left hf.1 hguard
        have hframe := run_frame hc a hops₁
        have hsteps := run_eq_perform hc a l₁ hops₁
        simp only [↓reduceIte, Program.bind_apply]
        cases hr : a.run call l₁ with
        | error stop l' =>
          rw [hr] at ha
          exact ha.append .error
        | ok reply l' =>
          rw [hr] at ha hframe hf
          have hperform := perform_of_ok hsteps hr
          have hrest := hw₁.right hperform
          rw [hperform] at hrest
          exact ha.append (ihrest (fun b hb => ih b (List.mem_cons_of_mem _ hb))
            (fun b hb => hp b (List.mem_cons_of_mem _ hb)) _ reply
            (hframe.operations.trans hops₁) hh.2 hrest hf.2 (ha.guard reply l' rfl))

theorem watchedSend {message : String} (args : List Value) {g : Bool} {l : Lexer}
    (hops : l.operations = []) (hg : g = true → l.engine.toGo < limit) :
    Watched limit ((send message args).unguarded g) [] ((send message args).run call l) := by
  rw [unguarded, run, sendMessage_eq hops]
  cases hm : rewinds message with
  | true =>
    apply Watched.quiet
    intro reply l' hr hguard
    simp at hguard
  | false => exact .onward (builtIn_toGo hm args l) (by simpa using hg)

/-- A message that carries a state lifts no guard, so it must not rewind. -/
theorem watchedState {message : String} (state : String) {next : Action}
    (ih : IsWatched call calls limit next) :
    IsWatched call calls limit (.changeState message state next) := by
  intro g l hops hh hw hf hg
  rw [walk, List.forall_mem_cons] at hh
  have hm : rewinds message = false := by simpa [HidesRewind] using hh.1.hidesNothing
  have hframe := builtIn_frame message [.text state] l
  have hle := builtIn_toGo hm [.text state] l
  rw [steps] at hw
  rw [Action.calls] at hf
  rw [unguarded, Action.calls, run, Program.bind_apply, sendMessage_eq hops]
  cases hr : builtIn message [.text state] l with
  | error stop l' => exact .error
  | ok reply l' =>
    rw [hr] at hframe hle hf
    have hstep : (Step.message message [.text state]).run l = .ok () l' := by
      rw [Step.run_message, hr]
      rfl
    have hnext := hw.next hstep
    rw [hr] at hnext
    exact ih g l' (hframe.operations.trans hops) hh.2 hnext hf
      fun hguard => Nat.lt_of_le_of_lt hle (hg hguard)

theorem watchedLexeme (p : Pattern) {hit : Action} {miss : Option Action}
    (ihhit : IsWatched call calls limit hit) (ihmiss : ∀ a ∈ miss, IsWatched call calls limit a) :
    IsWatched call calls limit (.onLexeme p hit miss) := by
  intro g l hops hh hw hf hg
  simp only [walk, List.forall_mem_cons, List.forall_mem_append] at hh
  rw [steps] at hw
  rw [Action.calls] at hf
  simp only [unguarded, Action.calls, run, Program.bind_apply, Program.get_apply]
  by_cases hm : p.matchesLexeme l.engine.lexeme = true
  · rw [if_pos hm] at hw hf ⊢
    rw [if_pos hm]
    exact (ihhit g l hops hh.2.1 hw hf hg).mono (List.subset_append_left _ _)
      fun h => (Bool.and_eq_true_iff.mp h).1
  · rw [if_neg hm] at hw hf ⊢
    rw [if_neg hm]
    exact (watchedOption ihmiss g hops hh.2.2 hw hf hg).mono (List.subset_append_right _ _)
      fun h => (Bool.and_eq_true_iff.mp h).2

theorem watchedScan (p : Pattern) {hit : Action} {miss : Option Action}
    (ihhit : IsWatched call calls limit hit) (ihmiss : ∀ a ∈ miss, IsWatched call calls limit a) :
    IsWatched call calls limit (.onScan p hit miss) := by
  intro g l hops hh hw hf hg
  simp only [walk, List.forall_mem_cons, List.forall_mem_append] at hh
  rw [steps] at hw
  have hpattern := hh.1.consumes p (by simp [scanned])
  have hlimit := hw.start
  rw [Action.calls] at hf
  simp only [unguarded, Action.calls, run, Program.bind_apply]
  cases hs : scanToken p l with
  | error stop l' => exact .error
  | ok found l' =>
    obtain ⟨hsame, hle, hw'⟩ := ahead_scanned hw hs
    have hops' := hsame.trans hops
    rw [hs] at hf
    cases found with
    | true =>
      have hguard := guard_scanned hpattern hlimit hg hs
      exact (ihhit _ l' hops' hh.2.1 hw' hf hguard).mono (List.subset_append_left _ _)
        fun h => (Bool.and_eq_true_iff.mp h).1
    | false =>
      have hguard : g = true → l'.engine.toGo < limit := fun hguard =>
        Nat.lt_of_le_of_lt hle (hg hguard)
      exact (watchedOption ihmiss g hops' hh.2.2 hw' hf hguard).mono
        (List.subset_append_right _ _) fun h => (Bool.and_eq_true_iff.mp h).2

/-- The search for cycles is right about an honest action, wherever it stays ahead of the place
where its rule was entered. -/
theorem isWatched (hc : Answers call calls) (a : Action) : IsWatched call calls limit a := by
  induction a with
  | enqueue type =>
    intro g l hops hh hw hf hg
    rw [unguarded, Action.calls, run]
    exact .onward (enqueueToken_toGo type l) hg
  | send message args =>
    intro g l hops hh hw hf hg
    rw [Action.calls]
    exact watchedSend args hops hg
  | subrule name =>
    intro g l hops hh hw hf hg
    rw [Action.calls] at hf
    rw [unguarded, Action.calls, run]
    constructor
    · intro entry he
      obtain rfl := List.mem_singleton.mp he
      refine ⟨hw.start, ?_⟩
      cases g with
      | false => exact .inl (by simp)
      | true => exact .inr (hg rfl)
    · intro reply l' hr hguard
      exact Nat.lt_of_le_of_lt (hf (name, l) (by simp) reply l' hr) (hg hguard)
  | changeState message state next ih => exact watchedState state ih
  | onLexeme p hit miss ihhit ihmiss => exact watchedLexeme p ihhit ihmiss
  | onScan p hit miss ihhit ihmiss => exact watchedScan p ihhit ihmiss
  | patterns pairs ih =>
    intro g l hops hh hw hf hg
    rw [walk, List.forall_mem_cons] at hh
    rw [steps] at hw
    rw [Action.calls] at hf
    rw [unguarded, Action.calls, run]
    refine watchedPairs hc ih ?_ g none hops hh.2 hw hf hg
    intro pair hpair
    exact hh.1.consumes pair.1 (by simpa [scanned] using ⟨pair.2, hpair⟩)
  | sequence actions ih =>
    intro g l hops hh hw hf hg
    rw [walk, List.forall_mem_cons] at hh
    rw [steps] at hw
    rw [Action.calls] at hf
    rw [unguarded, Action.calls, run]
    exact watchedList hc ih g none hops hh.2 hw hf hg
  | putBack =>
    intro g l hops hh hw hf hg
    rw [unguarded, Action.calls]
    exact .quiet (by simp)
  | clear | retype =>
    intro g l hops hh hw hf hg
    rw [unguarded, Action.calls, run]
    exact .onward (Nat.le_refl _) hg

end Action

namespace Rule

def scanned (r : Rule) : List Pattern :=
  r.handlers.map Handler.pattern ++ r.allActions.flatMap Action.scanned

theorem firstScanned_toGo {handlers : List Handler} {found : Option Handler} {l l' : Lexer}
    (hf : firstScanned handlers l = .ok found l') :
    l'.engine.toGo ≤ l.engine.toGo ∧ ∀ h ∈ found, h.pattern.Consumes →
      h.pattern.matchesEmpty = false → l'.engine.toGo < l.engine.toGo := by
  induction handlers generalizing l with
  | nil =>
    cases hf
    simp
  | cons h rest ih =>
    have hle := scanToken_toGo h.pattern l
    rw [firstScanned, Program.bind_apply] at hf
    cases hs : scanToken h.pattern l with
    | error stop l₁ =>
      rw [hs] at hf
      cases hf
    | ok scanned l₁ =>
      rw [hs] at hf hle
      cases scanned with
      | true =>
        cases hf
        refine ⟨hle, ?_⟩
        rintro h' ⟨⟩ hp hm
        exact scanToken_found_toGo hp hm hs
      | false =>
        obtain ⟨hrest, hfound⟩ := ih hf
        refine ⟨Nat.le_trans hrest hle, ?_⟩
        intro h' hh hp hm
        exact Nat.lt_of_lt_of_le (hfound h' hh hp hm) hle

/-- A standard rule gets on by its character, or at the end of the text by noticing the end. -/
theorem dispatch_standard_toGo {r : Rule} (hk : r.kind = .standard) {found : Option Handler}
    {l l' : Lexer} (h : r.dispatch l = .ok found l') : l'.engine.toGo < l.engine.toGo := by
  unfold dispatch at h
  simp only [hk, Program.bind_apply, onEngine] at h
  cases hn : Engine.nextChar l.engine with
  | error fault e => simp [hn] at h
  | ok c e =>
    simp only [hn, Program.pure_apply, EStateM.Result.ok.injEq] at h
    rw [← h.2]
    exact Engine.nextChar_toGo_lt hn

theorem chosen_guarded {r : Rule} (hp : ∀ h ∈ r.handlers, h.pattern.Consumes)
    {found : Option Handler} {l l' : Lexer} (h : r.dispatch l = .ok found l')
    (hlimit : l.engine.toGo ≤ limit)
    (hg : (Action.unguardedOption false r.before).2 = true → l.engine.toGo < limit) :
    ∃ g : Bool, (g = true → l'.engine.toGo < limit) ∧
      ((r.chosen found).unguarded g).1 ⊆ r.unguardedSubrules := by
  unfold unguardedSubrules
  cases hk : r.kind with
  | standard =>
    have hlt := dispatch_standard_toGo hk h
    refine ⟨true, fun _ => Nat.lt_of_lt_of_le hlt hlimit, ?_⟩
    intro name hname
    cases found with
    | none => exact List.mem_append_right _ hname
    | some handler =>
      refine List.mem_append_left _ (List.mem_append_right _ ?_)
      exact List.mem_flatMap.mpr ⟨handler, dispatch_mem h, hname⟩
  | lookahead =>
    have hscan : firstScanned r.handlers l = .ok found l' := by
      simpa [dispatch, hk] using h
    obtain ⟨hle, hconsumed⟩ := firstScanned_toGo hscan
    cases found with
    | none =>
      refine ⟨_, fun hguard => Nat.lt_of_le_of_lt hle (hg hguard), ?_⟩
      intro name hname
      exact List.mem_append_right _ hname
    | some handler =>
      have hmem := dispatch_mem h
      refine ⟨(Action.unguardedOption false r.before).2 || !handler.pattern.matchesEmpty, ?_, ?_⟩
      · intro hguard
        rcases Bool.or_eq_true_iff.mp hguard with hguard | hm
        · exact Nat.lt_of_le_of_lt hle (hg hguard)
        · exact Nat.lt_of_lt_of_le
            (hconsumed handler rfl (hp handler hmem) (by simpa using hm)) hlimit
      · intro name hname
        refine List.mem_append_left _ (List.mem_append_right _ ?_)
        exact List.mem_flatMap.mpr ⟨handler, hmem, hname⟩

theorem honest_of {r : Rule} (hhides : ∀ a ∈ r.allActions, ¬ a.HidesRewind)
    (hp : ∀ p ∈ r.scanned, p.Consumes) : ∀ a ∈ r.topActions, ∀ b ∈ a.walk, b.Honest := by
  intro a ha b hb
  have hmem : b ∈ r.allActions := List.mem_flatMap.mpr ⟨a, ha, hb⟩
  refine ⟨hhides b hmem, ?_⟩
  intro p hpb
  exact hp p (List.mem_append_right _ (List.mem_flatMap.mpr ⟨b, hmem, hpb⟩))

theorem honest_before {r : Rule} (h : ∀ a ∈ r.topActions, ∀ b ∈ a.walk, b.Honest) :
    ∀ b ∈ Action.walkOption r.before, b.Honest := by
  cases hb : r.before with
  | none => simp [Action.walkOption]
  | some a =>
    rw [Action.walkOption]
    exact h a (by simp [topActions, hb])

theorem before_subset (r : Rule) :
    (Action.unguardedOption false r.before).1 ⊆ r.unguardedSubrules := by
  intro name hname
  rw [unguardedSubrules]
  cases r.kind <;> exact List.mem_append_left _ (List.mem_append_left _ hname)

/-- The search for cycles is right about a rule that hides no return and stays ahead of where it
was entered: a call is made with no more left to do than there was then, and with less unless the
search knows of it. -/
theorem calls_guarded (hc : Answers call calls) {r : Rule} {l : Lexer} (hops : l.operations = [])
    (hhides : ∀ a ∈ r.allActions, ¬ a.HidesRewind) (hp : ∀ p ∈ r.scanned, p.Consumes)
    (hw : Ahead limit (r.steps calls l) l) (hf : Forward call (r.calls call l)) :
    ∀ entry ∈ r.calls call l, entry.2.engine.toGo ≤ limit ∧
      (entry.1 ∈ r.unguardedSubrules ∨ entry.2.engine.toGo < limit) := by
  have honest := honest_of hhides hp
  rw [Rule.calls, Forward, List.forall_mem_append] at hf
  rw [Rule.steps] at hw
  have hfirst := Action.watchedOption (fun a _ => Action.isWatched hc a) false hops
    (honest_before honest) hw.left hf.1 (by simp)
  rw [Rule.calls, List.forall_mem_append]
  constructor
  · intro entry he
    obtain ⟨hlimit, hknown⟩ := hfirst.entered entry he
    exact ⟨hlimit, hknown.imp_left (@before_subset r entry.1)⟩
  · have hsteps := Action.runOption_eq_perform (o := r.before)
      (fun a _ => Action.run_eq_perform hc a) hops
    have hframe := Action.runOption_frame hc r.before hops
    cases hr : Action.runOption call r.before l with
    | error stop l₁ => simp
    | ok reply l₁ =>
      rw [hr] at hf hfirst hframe
      have hperform := perform_of_ok hsteps hr
      have hw₁ := hw.right hperform
      rw [hperform] at hw₁
      have hops₁ := hframe.operations.trans hops
      have hdispatch := dispatch_eq_perform r l₁
      have hframe₁ := perform_frame (r.dispatchSteps l₁) l₁
      cases hd : r.dispatch l₁ with
      | error stop l₂ => simp [hd]
      | ok found l₂ =>
        obtain ⟨-, hf⟩ := hf
        simp only [hd] at hf ⊢
        have hperform₁ := perform_of_ok hdispatch hd
        have hw₂ := hw₁.right hperform₁
        rw [hperform₁] at hframe₁
        simp only [hd, followed] at hw₂
        have hscanned : ∀ h ∈ r.handlers, h.pattern.Consumes := fun h hh =>
          hp h.pattern (List.mem_append_left _ (List.mem_map_of_mem hh))
        obtain ⟨g, hg, hnames⟩ := chosen_guarded hscanned hd hw₁.start
          (hfirst.guard reply l₁ rfl)
        have hlast := Action.isWatched hc (r.chosen found) g l₂
          (hframe₁.operations.trans hops₁) (honest _ (chosen_mem hd)) hw₂ hf hg
        intro entry he
        obtain ⟨hlimit, hknown⟩ := hlast.entered entry he
        exact ⟨hlimit, hknown.imp_left (@hnames entry.1)⟩

end Rule
end Guarded
end TableLexer
