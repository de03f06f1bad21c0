import TableLexer.Proofs.Lexer.Calls
import TableLexer.Proofs.Lexer.Separators
import TableLexer.Proofs.Lexer.Types

/-!
# Line ends and their tokens

A line end can be met by the driver or by a scan inside a rule, and the separator is consumed
by whichever layout step comes next. The driver queues a token for the line ends it meets
itself. For those met inside a rule it queues none: when it gets to work again the line end is
pending already, and the separator is consumed without being reported.
-/
namespace TableLexer

def Separator.token (type : TokenType) (s : Separator) : Entry :=
  .token type (.ofLexeme s.text s.position)

namespace Lexer

open Engine (Tracked)

structure Basic (l : Lexer) : Prop where
  operations : l.operations = []
  rules : l.ruleset.Basic
  eolTokens : l.options.eolTokens = true
  kept : Queue.transform? l.queue.transforms l.options.eolType = none

theorem Basic.frame {l l' : Lexer} (h : l.Basic) (hf : SameFrame l l') : l'.Basic := by
  constructor
  · exact hf.operations.trans h.operations
  · rw [hf.ruleset]
    exact h.rules
  · rw [hf.options]
    exact h.eolTokens
  · rw [hf.transforms, hf.options]
    exact h.kept

def modeSteps (n : Nat) (l : Lexer) : List Step :=
  match (l.options.ruleFor? l.modes.current).bind l.ruleset.rule? with
  | some r => r.steps (respondSteps n) l.counted
  | none => []

variable {start : Nat} {met : List Separator} {l : Lexer} {n : Nat}

theorem modeSteps_traced (hb : l.ruleset.Basic) (n : Nat) (h : Tracked start met l.engine)
    (hf : l.engine.Fresh) : Traced start met (l.modeSteps n) l.counted := by
  unfold modeSteps
  split
  · next r hr =>
    obtain ⟨name, -, hname⟩ := Option.bind_eq_some_iff.mp hr
    exact rule_traced (hb r (Ruleset.mem_of_rule? hname)) _ h hf
  · exact traced_nil h

theorem skipChar_tracked (h : Tracked start met l.engine)
    (hl : l.engine.lineState ≠ .atLineEnd)
    (hr : l.engine.recognition = .ready ∨ l.engine.recognition = .recognized) :
    Tracked start met (Program.final (skipChar l)).engine := by
  have hf : l.engine.Fresh := by
    constructor
    · rcases hr with hr | hr <;> simp [hr]
    · intro he
      exact absurd he hl
  rw [skipChar_eq]
  cases hc : Engine.nextChar l.engine with
  | ok c e =>
    exact (h.charRead (Engine.nextChar_cases hc).2).samePlace (Engine.rested_samePlace e)
  | error fault e =>
    rw [(hf.nextChar_fails hc).1]
    exact h

/-- The driver skips a character only where no line has ended. -/
theorem settle_tracked (h : Tracked start met l.engine) {mark : Mark}
    (hm : mark.lineState ≠ .atLineEnd) (rule : String) (captured : Bool) :
    Tracked start met (Program.final (settle rule mark captured l)).engine := by
  have stay : (l.engine.recognition = .ready ∨ l.engine.recognition = .recognized) →
      Tracked start met (Program.final (if stalled mark l.engine.toMark then
          skipChar (l.complained (.located (.stalledRule rule) l.engine.currentPosition) captured)
        else .ok () l)).engine := by
    intro hr
    cases hst : stalled mark l.engine.toMark with
    | false => exact h
    | true =>
      generalize hcl : l.complained (.located (.stalledRule rule) l.engine.currentPosition)
        captured = c
      have hce : c.engine = l.engine := by
        rw [← hcl]
        cases captured <;> rfl
      have hline : l.engine.lineState ≠ .atLineEnd := by
        intro he
        simp [stalled, he, hm] at hst
      exact skipChar_tracked (hce ▸ h) (hce ▸ hline) (hce ▸ hr)
  rw [settle_eq]
  cases hr : l.engine.recognition with
  | tokenizing | failed => exact h.samePlace (Engine.rested_samePlace l.engine)
  | done | waitingForInput => exact h
  | aborted => cases captured <;> exact h
  | ready => exact stay (.inl hr)
  | recognized => exact stay (.inr hr)

/-- A rule that broke off in the middle of a token is the only one not to leave separators
tracked. -/
theorem applyModeRule_tracked (hops : l.operations = [])
    (ht : Traced start met (l.modeSteps n) l.counted) (hl : l.engine.lineState ≠ .atLineEnd)
    (hr : (Program.final (applyModeRule n l)).engine.recognition ≠ .tokenizing) :
    Tracked start (met ++ observed Step.meets (l.modeSteps n) l.counted)
      (Program.final (applyModeRule n l)).engine := by
  have hf := ht.followed
  generalize met ++ observed Step.meets (l.modeSteps n) l.counted = all at hf
  unfold modeSteps at hf
  rw [applyModeRule_eq] at hr ⊢
  cases hname : l.options.ruleFor? l.modes.current with
  | none =>
    rw [hname] at hf
    exact hf
  | some name =>
    simp only [hname, Option.bind_some] at hf hr ⊢
    cases hrule : l.ruleset.rule? name with
    | none =>
      rw [hrule] at hf
      exact hf
    | some r =>
      simp only [hrule] at hf hr ⊢
      rw [← Rule.run_eq_perform (respond_answers n) r l.counted hops] at hf
      rw [capturing_eq] at hr ⊢
      cases hrun : r.run (respond n) l.counted with
      | ok a l₁ =>
        rw [hrun] at hf
        exact settle_tracked hf hl name false
      | error stop l₁ =>
        rw [hrun] at hf
        cases stop with
        | exhausted => exact hf
        | fault e =>
          by_cases hk : e.kind = .lexical
          · simp only [hk, ↓reduceIte]
            have hf := hf.resolve_right fun h => h.1 hk
            exact settle_tracked (l := l₁.errorQueued e) hf hl name true
          · simp only [hrun, hk, ↓reduceIte] at hr ⊢
            exact hf.resolve_right fun h => hr h.2

/-- What was delivered in a run, what else joined the queue than tokens for the line ends that
the driver met, and which separators were met and consumed. -/
structure Log where
  delivered : List Entry := []
  others : List Entry := []
  byDriver : List Separator := []
  inRules : List Separator := []
  consumed : List Separator := []

def inModeRule (view : Step → Lexer → List Separator) (n : Nat) (l : Lexer) : List Separator :=
  match Engine.scanLayout l.engine with
  | .ok none e =>
    observed view (modeSteps n { l with engine := e }) { l with engine := e }.counted
  | _ => []

def Log.filled (n : Nat) (l : Lexer) (log : Log) : Log :=
  let met := (Engine.met? (Engine.scanLayout l.engine)).toList
  { log with
    others := log.others ++ if met = [] then (Program.final (fillStep n l)).queue.toList else []
    byDriver := log.byDriver ++ met
    inRules := log.inRules ++ inModeRule Step.meets n l
    consumed := log.consumed ++ (l.engine.leaving?.toList ++ inModeRule Step.consumes n l) }

/-- The lexers that `l` becomes by driver steps and deliveries. A step that failed leaves a
lexer with which the run may go on, unless it failed in the middle of a token. -/
inductive Run (n : Nat) (l : Lexer) : Log → Lexer → Prop where
  | start : Run n l {} l
  | fill {log a} (h : Run n l log a) (hq : a.queue.toList = [])
      (hr : a.engine.recognition ≠ .tokenizing) :
      Run n l (log.filled n a) (Program.final (fillStep n a))
  | deliver {log a entry queue} (h : Run n l log a) (hq : a.queue.dequeue = .ok (entry, queue)) :
      Run n l { log with delivered := log.delivered ++ [entry] } { a with queue }

def reported (options : Options) (s : Separator) : List Entry :=
  if options.eolType.isBlankSymbol then [] else [s.token options.eolType]

structure Accounted (log : Log) (l : Lexer) : Prop where
  balance : (log.delivered ++ l.queue.toList).Perm
    (log.byDriver.flatMap (reported l.options) ++ log.others)
  distinct : log.byDriver.Nodup
  apart : ∀ s ∈ log.byDriver, s ∉ log.inRules
  known : ∀ s ∈ log.consumed, s ∈ log.byDriver ++ log.inRules
  tracked : l.engine.recognition ≠ .tokenizing →
    Tracked 0 (log.byDriver ++ log.inRules) l.engine

theorem Accounted.deliver {log : Log} (h : Accounted log l) {entry : Entry} {queue : Queue}
    (hq : l.queue.dequeue = .ok (entry, queue)) :
    Accounted { log with delivered := log.delivered ++ [entry] } { l with queue } := by
  refine ⟨?_, h.distinct, h.apart, h.known, h.tracked⟩
  have hb := h.balance
  rw [(Queue.dequeue_eq_ok hq).1] at hb
  simpa using hb

theorem Accounted.others {log : Log} (h : Accounted log l) (hq : l.queue.toList = [])
    {l' : Lexer} (ho : l'.options = l.options) {met consumed : List Separator}
    (hm : ∀ s ∈ met, s ∉ log.byDriver)
    (hc : ∀ s ∈ consumed, s ∈ log.byDriver ++ log.inRules ++ met)
    (ht : l'.engine.recognition ≠ .tokenizing →
      Tracked 0 (log.byDriver ++ log.inRules ++ met) l'.engine) :
    Accounted { log with
      others := log.others ++ l'.queue.toList
      inRules := log.inRules ++ met
      consumed := log.consumed ++ consumed } l' := by
  constructor
  · have hb := h.balance
    rw [hq, List.append_nil] at hb
    rw [ho, ← List.append_assoc]
    exact hb.append_right _
  · exact h.distinct
  · intro s hs
    rw [List.mem_append, not_or]
    refine ⟨h.apart s hs, ?_⟩
    intro hs'
    exact hm s hs' hs
  · intro s hs
    rw [← List.append_assoc]
    rcases List.mem_append.mp hs with hs | hs
    · exact List.mem_append_left _ (h.known s hs)
    · exact hc s hs
  · rw [← List.append_assoc]
    exact ht

theorem Accounted.lineEnd {log : Log} (h : Accounted log l) (hq : l.queue.toList = [])
    {l' : Lexer} (ho : l'.options = l.options) {s : Separator}
    (hs : s ∉ log.byDriver ++ log.inRules) {consumed : List Separator}
    (hc : ∀ s ∈ consumed, s ∈ log.byDriver ++ log.inRules)
    (hq' : l'.queue.toList = reported l.options s)
    (ht : Tracked 0 (log.byDriver ++ log.inRules ++ [s]) l'.engine) :
    Accounted { log with
      byDriver := log.byDriver ++ [s]
      consumed := log.consumed ++ consumed } l' := by
  rw [List.mem_append, not_or] at hs
  have hall : ∀ x, x ∈ (log.byDriver ++ [s]) ++ log.inRules ↔
      x ∈ log.byDriver ++ log.inRules ++ [s] := by
    intro x
    simp only [List.mem_append]
    exact or_right_comm
  constructor
  · have hb := h.balance
    rw [hq, List.append_nil] at hb
    rw [hq', ho, List.flatMap_append, List.flatMap_singleton, List.append_assoc]
    apply (hb.append_right _).trans
    rw [List.append_assoc]
    exact List.perm_append_comm.append_left _
  · rw [List.nodup_append]
    refine ⟨h.distinct, by simp, ?_⟩
    simp only [List.mem_singleton]
    rintro x hx y rfl rfl
    exact hs.1 hx
  · intro x hx
    rcases List.mem_append.mp hx with hx | hx
    · exact h.apart x hx
    · rw [List.mem_singleton.mp hx]
      exact hs.2
  · intro x hx
    rw [hall]
    rcases List.mem_append.mp hx with hx | hx
    · exact List.mem_append_left _ (h.known x hx)
    · exact List.mem_append_left _ (hc x hx)
  · intro _
    exact ht.congr hall

theorem Log.filled_others (n : Nat) (log : Log)
    (hm : Engine.met? (Engine.scanLayout l.engine) = none) :
    log.filled n l = { log with
      others := log.others ++ (Program.final (fillStep n l)).queue.toList
      inRules := log.inRules ++ inModeRule Step.meets n l
      consumed := log.consumed ++ (l.engine.leaving?.toList ++ inModeRule Step.consumes n l) } := by
  simp [filled, hm]

theorem Log.filled_lineEnd (n : Nat) (log : Log) {e : Engine} {s : Separator}
    (hl : Engine.scanLayout l.engine = .ok (some .lineEnd) e) (hs : e.separatorHere? = some s) :
    log.filled n l = { log with
      byDriver := log.byDriver ++ [s]
      consumed := log.consumed ++ l.engine.leaving?.toList } := by
  simp [filled, inModeRule, hl, Engine.met?, hs]

theorem enqueueLineEnd_queue (hb : l.Basic) (hq : l.queue.toList = []) {s : Separator}
    (ht : l.engine.lexemeText = s.text) (hp : l.engine.lexemePosition = s.position) :
    (Program.final (enqueueLineEnd l)).queue.toList = reported l.options s ∧
      (Program.final (enqueueLineEnd l)).engine = l.engine := by
  have htoken : l.lineEndToken = s.token l.options.eolType := by
    rw [lineEndToken, ht, hp]
    rfl
  rw [enqueueLineEnd_eq, if_pos hb.eolTokens, htoken, Queue.pushAhead_eq, Separator.token,
    Queue.transformed_token, hb.kept]
  by_cases hblank : l.options.eolType.isBlankSymbol = true
  · simp [hblank, reported, hq]
  · have hnil : l.queue.front = [] ∧ l.queue.back = [] := by simpa [Queue.toList] using hq
    simp [hblank, reported, Queue.toList, hnil, Separator.token]

section Fill

variable {log : Log} {e : Engine}

theorem Accounted.leaving (h : Accounted log l) (hr : l.engine.recognition ≠ .tokenizing) :
    ∀ s ∈ l.engine.leaving?.toList, s ∈ log.byDriver ++ log.inRules := by
  intro s hs
  exact (h.tracked hr).leaving (Option.mem_toList.mp hs)

theorem Accounted.fill_refused (h : Accounted log l) (hq : l.queue.toList = [])
    (hs : ¬ l.engine.Scannable) (n : Nat) :
    Accounted (log.filled n l) (Program.final (fillStep n l)) := by
  obtain ⟨fault, -, hf⟩ := Engine.scanLayout_refuses hs
  have hsame : Program.final (fillStep n l) = l := by
    rw [fillStep, Program.bind_apply]
    simp only [onEngine, hf]
    rfl
  have hleave : l.engine.leaving? = none := by
    unfold Engine.leaving?
    rw [if_neg]
    intro hr
    exact hs (hr.2.imp_right .inr)
  rw [Log.filled_others n log (by rw [hf]; rfl), hsame]
  apply h.others hq rfl
  · simp [inModeRule, hf]
  · simp [inModeRule, hf, hleave]
  · simpa [inModeRule, hf] using h.tracked

theorem Accounted.fill_lineEnd (h : Accounted log l) (hb : l.Basic) (hq : l.queue.toList = [])
    (hr : l.engine.recognition ≠ .tokenizing) (n : Nat)
    (hl : Engine.scanLayout l.engine = .ok (some .lineEnd) e) :
    Accounted (log.filled n l) (Program.final (fillStep n l)) := by
  obtain ⟨hs, hlaid⟩ := Engine.scanLayout_eq_ok_iff.mp hl
  obtain ⟨s, hsep, htext, hpos⟩ := hlaid.lineEnd_shown hs hr
  have htracked := (h.tracked hr).laidOut hs hlaid
  have hnew : s ∉ log.byDriver ++ log.inRules := by
    intro hmem
    have hbetween : l.engine.recognition = .ready ∨ l.engine.recognition = .recognized := by
      rcases hs with hs | hs | hs
      · exact .inl hs
      · exact absurd hs hr
      · exact .inr hs
    have hlt := ((h.tracked hr).passed s hmem).lt_opened hbetween
    have hle := hlaid.opened_le
    rw [Engine.separatorHere?_offset hsep] at hlt
    omega
  have hbasic : ({ l with engine := e } : Lexer).Basic :=
    hb.frame ⟨hlaid.sameText, rfl, rfl, rfl, rfl⟩
  obtain ⟨hqueue, hengine⟩ := enqueueLineEnd_queue hbasic hq htext hpos
  rw [Log.filled_lineEnd n log hl hsep, fillStep_eq n hl, afterLayout]
  refine h.lineEnd hq ?_ hnew (h.leaving hr) hqueue ?_
  · exact (enqueueLineEnd_frame _).options
  · rw [hengine]
    simpa [Engine.met?, hsep] using htracked

theorem Accounted.fill_rule (h : Accounted log l) (hb : l.Basic) (hq : l.queue.toList = [])
    (hr : l.engine.recognition ≠ .tokenizing) (n : Nat)
    (hl : Engine.scanLayout l.engine = .ok none e) :
    Accounted (log.filled n l) (Program.final (fillStep n l)) := by
  obtain ⟨hs, hlaid⟩ := Engine.scanLayout_eq_ok_iff.mp hl
  have hline := hlaid.body_lineState hs hr
  have htracked : Tracked 0 (log.byDriver ++ log.inRules) e := by
    simpa [Engine.met?] using (h.tracked hr).laidOut hs hlaid
  have htraced := modeSteps_traced (l := { l with engine := e }) hb.rules n
    (htracked.startAt (Nat.le_refl e.pos)) (hlaid.fresh hs hr)
  have hin : ∀ view, inModeRule view n l =
      observed view (modeSteps n { l with engine := e }) { l with engine := e }.counted := by
    intro view
    simp only [inModeRule, hl]
  have hops : ({ l with engine := e } : Lexer).operations = [] := hb.operations
  rw [Log.filled_others n log (by rw [hl]; rfl), fillStep_eq n hl, afterLayout]
  apply h.others hq (applyModeRule_frame n hops).options
  · intro s hmem hdriver
    rw [hin] at hmem
    have hle := htraced.beyond s hmem
    have hlt := (htracked.passed s (List.mem_append_left _ hdriver)).lt hline
    omega
  · intro s hmem
    rw [hin] at hmem ⊢
    rcases List.mem_append.mp hmem with hmem | hmem
    · exact List.mem_append_left _ (h.leaving hr s hmem)
    · exact htraced.consumed s hmem
  · intro hrest
    rw [hin]
    exact (applyModeRule_tracked hops htraced hline hrest).startAt (Nat.zero_le _)

theorem Accounted.fill_other (h : Accounted log l) (hq : l.queue.toList = [])
    (hr : l.engine.recognition ≠ .tokenizing) (n : Nat) {o : Outcome}
    (hl : Engine.scanLayout l.engine = .ok (some o) e) (ho : o ≠ .lineEnd)
    (hf : SameFrame { l with engine := e } (Program.final (fillStep n l)))
    (hp : Engine.SamePlace e (Program.final (fillStep n l)).engine) :
    Accounted (log.filled n l) (Program.final (fillStep n l)) := by
  obtain ⟨hs, hlaid⟩ := Engine.scanLayout_eq_ok_iff.mp hl
  have hm : Engine.met? (Engine.scanLayout l.engine) = none := by
    rw [hl]
    cases o with
    | lineEnd => exact absurd rfl ho
    | indentation | endOfStream | token => rfl
  have hin : ∀ view, inModeRule view n l = [] := by
    intro view
    simp only [inModeRule, hl]
  have htracked : Tracked 0 (log.byDriver ++ log.inRules) e := by
    have ht := (h.tracked hr).laidOut hs hlaid
    rw [← hl, hm] at ht
    simpa using ht
  rw [Log.filled_others n log hm, hin, hin]
  apply h.others hq hf.options
  · simp
  · simpa using h.leaving hr
  · intro _
    simpa using htracked.samePlace hp

theorem enqueueIndent_samePlace (hr : l.engine.recognition = .recognized) :
    Engine.SamePlace l.engine (Program.final (enqueueIndent l)).engine := by
  rw [enqueueIndent_eq hr]
  split <;> exact ⟨rfl, rfl, rfl⟩

theorem accounted_fill (h : Accounted log l) (hb : l.Basic) (hq : l.queue.toList = [])
    (hr : l.engine.recognition ≠ .tokenizing) (n : Nat) :
    Accounted (log.filled n l) (Program.final (fillStep n l)) := by
  by_cases hs : l.engine.Scannable
  · obtain ⟨o, e, hl⟩ := Engine.scanLayout_total hs
    obtain ⟨-, hlaid⟩ := Engine.scanLayout_eq_ok_iff.mp hl
    cases o with
    | none => exact h.fill_rule hb hq hr n hl
    | some outcome =>
      cases outcome with
      | lineEnd => exact h.fill_lineEnd hb hq hr n hl
      | indentation =>
        apply h.fill_other hq hr n hl (by simp)
        · rw [fillStep_eq n hl]
          exact enqueueIndent_frame _
        · rw [fillStep_eq n hl]
          exact enqueueIndent_samePlace (l := { l with engine := e }) hlaid.indentation_recognized
      | endOfStream =>
        apply h.fill_other hq hr n hl (by simp)
        · rw [fillStep_eq n hl]
          exact endQueued_frame _
        · rw [fillStep_eq n hl]
          exact ⟨rfl, rfl, rfl⟩
      | token => cases hlaid
  · exact h.fill_refused hq hs n

end Fill

theorem accounted_initial (text : String) (l : Lexer) : Accounted {} (l.restarted text) := by
  constructor
  · exact .nil
  · exact List.nodup_nil
  · intro s hs
    cases hs
  · intro s hs
    cases hs
  · intro _
    constructor
    · exact Nat.zero_le _
    · intro s hs
      cases hs
    · intro hl
      cases hl

/-- The accounts hold in every run on a new text. -/
theorem run_accounted {text : String} (hb : (l.restarted text).Basic) {log : Log} {a : Lexer}
    (h : Run n (l.restarted text) log a) : Accounted log a ∧ SameFrame (l.restarted text) a := by
  induction h with
  | start => exact ⟨accounted_initial text l, .refl _⟩
  | fill _ hq hr ih =>
    obtain ⟨hacc, hframe⟩ := ih
    have hba := hb.frame hframe
    exact ⟨accounted_fill hacc hba hq hr n, hframe.trans (fillStep_frame n hba.operations)⟩
  | deliver _ hq ih =>
    obtain ⟨hacc, hframe⟩ := ih
    refine ⟨hacc.deliver hq, hframe.trans ?_⟩
    exact ⟨⟨rfl, rfl⟩, rfl, rfl, rfl, (Queue.dequeue_eq_ok hq).2⟩

theorem rested_rests (e : Engine) : e.rested.recognition ≠ .tokenizing := by
  unfold Engine.rested
  split
  · simp
  · next hr =>
    intro h
    exact hr (.inl h)

theorem skipChar_rests {l' : Lexer} (h : skipChar l = .ok () l') :
    l'.engine.recognition ≠ .tokenizing := by
  rw [skipChar_eq] at h
  split at h <;> cases h
  exact rested_rests _

theorem settle_rests {rule : String} {mark : Mark} {captured : Bool} {l' : Lexer}
    (h : settle rule mark captured l = .ok () l') : l'.engine.recognition ≠ .tokenizing := by
  rw [settle_eq] at h
  cases hr : l.engine.recognition with
  | tokenizing | failed =>
    simp only [hr] at h
    cases h
    exact rested_rests _
  | done =>
    simp only [hr] at h
    cases h
    simp [endQueued, hr]
  | aborted =>
    simp only [hr] at h
    cases h
    cases captured <;> simp [endQueued, complained, errorQueued, hr]
  | waitingForInput =>
    simp only [hr] at h
    cases h
  | ready | recognized =>
    simp only [hr] at h
    split at h
    · exact skipChar_rests h
    · cases h
      simp [hr]

theorem applyModeRule_rests {l' : Lexer} (h : applyModeRule n l = .ok () l') :
    l'.engine.recognition ≠ .tokenizing := by
  rw [applyModeRule_eq] at h
  split at h
  · cases h
  · split at h
    · cases h
    · split at h
      · exact settle_rests h
      · cases h

theorem fillStep_rests {l' : Lexer} (hr : l.engine.recognition ≠ .tokenizing)
    (h : fillStep n l = .ok () l') : l'.engine.recognition ≠ .tokenizing := by
  by_cases hs : l.engine.Scannable
  · obtain ⟨o, e, hl⟩ := Engine.scanLayout_total hs
    obtain ⟨-, hlaid⟩ := Engine.scanLayout_eq_ok_iff.mp hl
    have hfresh := hlaid.fresh hs hr
    rw [fillStep_eq n hl] at h
    cases o with
    | none => exact applyModeRule_rests h
    | some outcome =>
      cases outcome with
      | token => cases hlaid
      | endOfStream =>
        cases h
        exact hfresh.between
      | lineEnd =>
        rw [afterLayout, enqueueLineEnd_eq] at h
        split at h
        · split at h <;> cases h
          exact hfresh.between
        · cases h
          exact hfresh.between
      | indentation =>
        have hrec := hlaid.indentation_recognized
        rw [afterLayout, enqueueIndent_eq (l := { l with engine := e }) hrec] at h
        split at h <;> cases h
        exact hfresh.between
  · obtain ⟨fault, -, hf⟩ := fillStep_refuses n hs
    rw [hf] at h
    cases h

theorem Run.fillQueue {log : Log} {a : Lexer} (h : Run n l log a)
    (hr : a.engine.recognition ≠ .tokenizing) (rounds : Nat) :
    ∃ log', Run n l log' (Program.final (fillQueue n rounds a)) ∧
      log'.delivered = log.delivered := by
  induction rounds generalizing log a with
  | zero => exact ⟨log, h, rfl⟩
  | succ rounds ih =>
    by_cases hq : a.queue.toList = []
    · have hfill := h.fill hq hr
      rw [fillQueue_empty hq]
      cases hstep : fillStep n a with
      | ok _ a' =>
        rw [hstep] at hfill
        obtain ⟨log', hrun, hd⟩ := ih hfill (fillStep_rests hr hstep)
        exact ⟨log', hrun, hd⟩
      | error stop a' =>
        rw [hstep] at hfill
        exact ⟨_, hfill, rfl⟩
    · rw [fillQueue_full hq n (by omega)]
      exact ⟨log, h, rfl⟩

def entries (given : List (Except Stop Entry)) : List Entry := given.filterMap Except.toOption

theorem Run.dequeue {log : Log} {a : Lexer} (h : Run n l log a) :
    ∃ log', Run n l log' (Program.final (onQueue QueueM.dequeue a)) ∧
      log'.delivered = log.delivered ++ entries [answer (onQueue QueueM.dequeue a)] := by
  rw [onQueue_dequeue]
  cases hd : a.queue.dequeue with
  | ok r => exact ⟨_, h.deliver hd, rfl⟩
  | error fault => exact ⟨log, h, by simp [entries, answer, Except.toOption]⟩

theorem Run.nextToken {log : Log} {a : Lexer} (h : Run n l log a) :
    ∃ log', Run n l log' (Program.final (nextToken n a)) ∧
      log'.delivered = log.delivered ++ entries [answer (nextToken n a)] := by
  have refused : ∀ stop, Lexer.nextToken n a = .error stop a →
      ∃ log', Run n l log' (Program.final (Lexer.nextToken n a)) ∧
        log'.delivered = log.delivered ++ entries [answer (Lexer.nextToken n a)] := by
    intro stop hstop
    rw [hstop]
    exact ⟨log, h, by simp [entries, answer, Except.toOption]⟩
  by_cases hw : a.engine.recognition = .waitingForInput
  · exact refused (.fault (.plain .noInput)) (by simp [Lexer.nextToken, hw, fail])
  cases hq : a.queue.toList with
  | cons entry rest =>
    obtain ⟨q, hd, -, hnext⟩ := nextToken_queued hw hq
    rw [hnext]
    exact ⟨_, h.deliver hd, rfl⟩
  | nil =>
    by_cases hr : a.engine.recognition = .ready ∨ a.engine.recognition = .recognized
    · have ht : a.engine.recognition ≠ .tokenizing := by
        rcases hr with hr | hr <;> simp [hr]
      obtain ⟨log₁, h₁, hd₁⟩ := h.fillQueue ht n
      rw [nextToken_fills hq hr]
      cases hfill : Lexer.fillQueue n n a with
      | ok _ a' =>
        rw [hfill] at h₁
        rw [← hd₁]
        exact h₁.dequeue
      | error stop a' =>
        rw [hfill] at h₁
        exact ⟨log₁, h₁, by simp [entries, answer, Except.toOption, hd₁]⟩
    · have he : a.queue.isEmpty = true := (Queue.isEmpty_iff _).mpr hq
      exact refused (.fault (.plain (.notScanning a.engine.recognition)))
        (by simp [Lexer.nextToken, hw, he, hr, fail])

theorem Run.calls {log : Log} {a : Lexer} (h : Run n l log a) (k : Nat) :
    ∃ log', Run n l log' (afterCalls n k a) ∧
      log'.delivered = log.delivered ++ entries (answers n k a) := by
  induction k generalizing log a with
  | zero => exact ⟨log, h, by simp [answers, entries]⟩
  | succ k ih =>
    obtain ⟨log₁, h₁, hd₁⟩ := h.nextToken
    obtain ⟨log₂, h₂, hd₂⟩ := ih h₁
    refine ⟨log₂, h₂, ?_⟩
    rw [hd₂, hd₁, List.append_assoc, answers]
    simp only [entries, ← List.filterMap_append, List.singleton_append]

/-- Nothing but the line ends that the driver meets becomes a token of the type for line ends. -/
structure Reserved (l : Lexer) : Prop where
  rules : ∀ r ∈ l.ruleset.rules, ∀ a ∈ r.allActions, l.options.eolType ∉ a.makes
  indentation : l.options.indentType ≠ l.options.eolType
  transforms : Queue.Spares l.queue.transforms l.options.eolType

theorem Reserved.frame {l' : Lexer} (h : l.Reserved) (hf : SameFrame l l') : l'.Reserved := by
  constructor
  · rw [hf.ruleset, hf.options]
    exact h.rules
  · rw [hf.options]
    exact h.indentation
  · rw [hf.transforms, hf.options]
    exact h.transforms

theorem enqueueIndent_lacks (hr : l.engine.recognition = .recognized) (h : l.Reserved)
    (hq : l.queue.Lacks l.options.eolType) :
    (Program.final (enqueueIndent l)).queue.Lacks l.options.eolType := by
  rw [enqueueIndent_eq hr]
  split
  · next hok =>
    apply hq.enqueue h.transforms _ hok
    simpa [Entry.type?] using h.indentation
  · exact hq

theorem fillStep_lacks (hb : l.Basic) (h : l.Reserved) (hq : l.queue.toList = [])
    (hr : l.engine.recognition ≠ .tokenizing)
    (hm : Engine.met? (Engine.scanLayout l.engine) = none) (n : Nat) :
    (Program.final (fillStep n l)).queue.Lacks l.options.eolType := by
  have hlacks : l.queue.Lacks l.options.eolType := by
    intro e he
    rw [hq] at he
    cases he
  by_cases hs : l.engine.Scannable
  · obtain ⟨o, e, hl⟩ := Engine.scanLayout_total hs
    obtain ⟨-, hlaid⟩ := Engine.scanLayout_eq_ok_iff.mp hl
    rw [fillStep_eq n hl]
    cases o with
    | none =>
      exact applyModeRule_lacks (l := { l with engine := e }) hb.operations hb.rules h.rules
        hlacks h.transforms n
    | some outcome =>
      cases outcome with
      | indentation =>
        exact enqueueIndent_lacks (l := { l with engine := e }) hlaid.indentation_recognized
          ⟨h.rules, h.indentation, h.transforms⟩ hlacks
      | lineEnd =>
        obtain ⟨s, hsep, -⟩ := hlaid.lineEnd_shown hs hr
        rw [hl, Engine.met?, hsep] at hm
        cases hm
      | endOfStream => exact endQueued_lacks hlacks
      | token => cases hlaid
  · obtain ⟨fault, -, hf⟩ := fillStep_refuses n hs
    rw [hf]
    exact hlacks

theorem run_others_lack {text : String} (hb : (l.restarted text).Basic)
    (hres : (l.restarted text).Reserved) {log : Log} {a : Lexer}
    (h : Run n (l.restarted text) log a) :
    ∀ e ∈ log.others, e.type? ≠ some l.options.eolType := by
  induction h with
  | start =>
    intro e he
    cases he
  | @fill log a hrun hq hr ih =>
    have hframe := (run_accounted hb hrun).2
    intro e he
    simp only [Log.filled, List.mem_append] at he
    rcases he with he | he
    · exact ih e he
    · split at he
      · next hm =>
        have hm : Engine.met? (Engine.scanLayout a.engine) = none := by simpa using hm
        have hlacks := fillStep_lacks (hb.frame hframe) (hres.frame hframe) hq hr hm n
        rw [hframe.options] at hlacks
        exact hlacks e he
      · cases he
  | deliver _ _ ih => exact ih

end Lexer

def Separator.marks (type : TokenType) (s : Separator) : Entry → Bool
  | .token made token => made = type && token.lexeme = s.text && token.position = s.position
  | _ => false

def Separator.tally (type : TokenType) (s : Separator) (entries : List Entry) : Nat :=
  entries.countP (s.marks type)

theorem Separator.tally_append (type : TokenType) (s : Separator) (xs ys : List Entry) :
    s.tally type (xs ++ ys) = s.tally type xs + s.tally type ys := List.countP_append

theorem Separator.tally_perm (type : TokenType) (s : Separator) {xs ys : List Entry}
    (h : xs.Perm ys) : s.tally type xs = s.tally type ys := h.countP_eq _

theorem Separator.marks_token {type : TokenType} {s t : Separator} :
    s.marks type (t.token type) = true ↔ t = s := by
  cases s
  cases t
  simp [marks, token, Token.ofLexeme]

namespace Lexer

theorem tally_reported_single (options : Options) (s t : Separator) :
    s.tally options.eolType (reported options t) =
      if s = t ∧ options.eolType.isBlankSymbol = false then 1 else 0 := by
  unfold reported Separator.tally
  by_cases hb : options.eolType.isBlankSymbol = true
  · simp [hb]
  · by_cases hst : s = t
    · simp [hb, hst, Separator.marks_token]
    · have hm : s.marks options.eolType (t.token options.eolType) = false := by
        rw [Bool.eq_false_iff, ne_eq, Separator.marks_token, eq_comm]
        exact hst
      simp [hb, hst, hm]

theorem tally_reported (options : Options) (s : Separator) {met : List Separator}
    (h : met.Nodup) :
    s.tally options.eolType (met.flatMap (reported options)) =
      if s ∈ met ∧ options.eolType.isBlankSymbol = false then 1 else 0 := by
  induction met with
  | nil => simp [Separator.tally]
  | cons t rest ih =>
    rw [List.nodup_cons] at h
    rw [List.flatMap_cons, Separator.tally_append, tally_reported_single, ih h.2]
    by_cases hst : s = t
    · subst hst
      simp [h.1]
    · simp [hst]

theorem Accounted.tally {log : Log} (h : Accounted log l) (s : Separator) :
    s.tally l.options.eolType (log.delivered ++ l.queue.toList) =
      s.tally l.options.eolType log.others +
        if s ∈ log.byDriver ∧ l.options.eolType.isBlankSymbol = false then 1 else 0 := by
  rw [Separator.tally_perm _ s h.balance, Separator.tally_append,
    tally_reported l.options s h.distinct]
  omega

theorem tally_lacking {type : TokenType} {entries : List Entry}
    (h : ∀ e ∈ entries, e.type? ≠ some type) (s : Separator) : s.tally type entries = 0 := by
  rw [Separator.tally, List.countP_eq_zero]
  intro e he hmark
  cases hcase : e with
  | endOfStream | error =>
    rw [hcase] at hmark
    cases hmark
  | token made token =>
    rw [hcase] at hmark
    simp only [Separator.marks, Bool.and_eq_true, decide_eq_true_eq] at hmark
    apply h e he
    rw [hcase, ← hmark.1.1]
    rfl

/-- Line ends and their tokens, in every run on a new text. A separator that is consumed as a
pending line end was met before, by the driver or inside a rule but not by both. There is one
token for it if the driver met it and its type has a name; if a rule met it there is none, apart
from tokens of the same type that rules make themselves. -/
theorem pending_line_ends_reported {text : String} {l l' : Lexer}
    (hset : setInput text l = .ok () l') (hb : l.Basic) (n : Nat) :
    (∀ k, ∃ log, Run n l' log (afterCalls n k l') ∧
      log.delivered = entries (answers n k l')) ∧
    ∀ log a, Run n l' log a → ∀ s ∈ log.consumed,
      (s ∈ log.byDriver ↔ s ∉ log.inRules) ∧
      s.tally l.options.eolType (log.delivered ++ a.queue.toList) =
        s.tally l.options.eolType log.others +
          (if s ∈ log.byDriver ∧ l.options.eolType.isBlankSymbol = false then 1 else 0) ∧
      (l.Reserved → s.tally l.options.eolType (log.delivered ++ a.queue.toList) =
        if s ∈ log.inRules ∨ l.options.eolType.isBlankSymbol = true then 0 else 1) := by
  rw [setInput_eq] at hset
  split at hset
  · cases hset
  cases hset
  have hb' : (l.restarted text).Basic := ⟨hb.operations, hb.rules, hb.eolTokens, hb.kept⟩
  constructor
  · intro k
    exact Run.start.calls k
  intro log a hrun s hs
  obtain ⟨hacc, hframe⟩ := run_accounted hb' hrun
  have hside : s ∈ log.byDriver ↔ s ∉ log.inRules := by
    constructor
    · exact hacc.apart s
    · intro hn
      exact (List.mem_append.mp (hacc.known s hs)).resolve_right hn
  have hoptions : a.options = l.options := hframe.options
  have htally := hacc.tally s
  rw [hoptions] at htally
  refine ⟨hside, htally, ?_⟩
  intro hres
  have hres' : (l.restarted text).Reserved := ⟨hres.rules, hres.indentation, hres.transforms⟩
  rw [htally, tally_lacking (run_others_lack hb' hres' hrun) s]
  by_cases hin : s ∈ log.inRules
  · have hnot : s ∉ log.byDriver := fun hd => hside.mp hd hin
    simp [hin, hnot]
  · cases hblank : l.options.eolType.isBlankSymbol with
    | true => simp
    | false => simp [hin, hside.mpr hin]

def pairRules : Ruleset :=
  { types := some [(.symbol "A", "a letter"), (.symbol "B", "another letter")]
    rules := [{ name := "main", kind := .lookahead
                handlers := [⟨.char 'a', .sequence [.enqueue (.symbol "A"),
                  .onScan (.char 'b') (.enqueue (.symbol "B")) none]⟩,
                  ⟨.char 'b', .enqueue (.symbol "B")⟩]
                otherwise := .enqueue (.symbol "A") }] }

def pairLexer : Lexer :=
  { engine := .new {}
    queue := .empty
    ruleset := pairRules
    options := { eolTokens := true } }

/-- The line end behind an `a` is met inside the rule, and its token is lost. -/
theorem line_end_behind_letter_lost :
    ∃ l' log a s, setInput "a\nb" pairLexer = .ok () l' ∧ pairLexer.Basic ∧ pairLexer.Reserved ∧
      Run 1 l' log a ∧ s ∈ log.consumed ∧
      s.tally pairLexer.options.eolType (log.delivered ++ a.queue.toList) = 0 := by
  have hb : pairLexer.Basic := ⟨rfl, by decide, rfl, rfl⟩
  have hres : pairLexer.Reserved := by
    refine ⟨by decide, by decide, ?_⟩
    intro t ht
    cases ht
  obtain ⟨l', hset, hfirst, hnil, hr⟩ : ∃ l', setInput "a\nb" pairLexer = .ok () l' ∧
      (⟨"\n", ⟨1, 1, 1⟩⟩ ∈ inModeRule Step.meets 1 l' ∧
        ⟨"\n", ⟨1, 1, 1⟩⟩ ∈ (Program.final (fillStep 1 l')).engine.leaving?.toList ∧
        (Program.final (fillStep 1 l')).queue.toList.length = 1 ∧
        (Program.final (fillStep 1 l')).engine.recognition ≠ .tokenizing) ∧
      l'.queue.toList = [] ∧ l'.engine.recognition ≠ .tokenizing := by
    exact ⟨_, setInput_eq "a\nb" pairLexer, by decide +kernel, rfl, by decide⟩
  obtain ⟨hmet, hleft, hlen, hrest⟩ := hfirst
  have hrun := Run.start.fill (n := 1) hnil hr
  obtain ⟨entry, hentry⟩ := List.length_eq_one_iff.mp hlen
  obtain ⟨queue, hq, hempty⟩ := Queue.dequeue_of_toList hentry
  have hrun := (hrun.deliver hq).fill hempty hrest
  have hconsumed := List.mem_append_right (Log.filled 1 l' {}).consumed
    (List.mem_append_left (inModeRule Step.consumes 1 { Program.final (fillStep 1 l') with queue })
      hleft)
  refine ⟨l', _, _, _, hset, hb, hres, hrun, hconsumed, ?_⟩
  rw [((pending_line_ends_reported hset hb 1).2 _ _ hrun _ hconsumed).2.2 hres, if_pos]
  refine .inl (List.mem_append_left _ ?_)
  exact List.mem_append_right _ hmet

end Lexer
end TableLexer
