import TableLexer.Proofs.FreshInput
import TableLexer.Proofs.LineEnds

/-!
# The counters account for every entry

A ledger goes along with a lexer and records what happens to entries: those delivered since the
last input that was accepted, and the tokens that a transform dropped. Wherever the lexer stands,
between two steps of the driver or within a rule, after calls that succeeded and calls that
failed, its counters agree with the ledger and the queue.
-/
namespace TableLexer

def tokenCount (entries : List Entry) : Nat := entries.countP fun e => e.type?.isSome

def errorCount (entries : List Entry) : Nat := entries.countP fun e => e.error?.isSome

@[simp] theorem tokenCount_nil : tokenCount [] = 0 := rfl

@[simp] theorem errorCount_nil : errorCount [] = 0 := rfl

@[simp] theorem tokenCount_append (xs ys : List Entry) :
    tokenCount (xs ++ ys) = tokenCount xs + tokenCount ys := List.countP_append

@[simp] theorem errorCount_append (xs ys : List Entry) :
    errorCount (xs ++ ys) = errorCount xs + errorCount ys := List.countP_append

theorem tokenCount_cons (e : Entry) (xs : List Entry) :
    tokenCount (e :: xs) = tokenCount [e] + tokenCount xs := tokenCount_append [e] xs

theorem errorCount_cons (e : Entry) (xs : List Entry) :
    errorCount (e :: xs) = errorCount [e] + errorCount xs := errorCount_append [e] xs

namespace Queue

/-- What a token becomes on its way into the queue is a token. -/
theorem transformed_counts {q : Queue} {type : TokenType} {token : Token} {reply : Option Entry}
    (h : q.transformed (.token type token) = .ok reply) :
    tokenCount reply.toList = (if reply.isSome then 1 else 0) ∧ errorCount reply.toList = 0 := by
  rw [transformed_token] at h
  split at h
  · cases h
  · split at h
    · cases h
      exact ⟨rfl, rfl⟩
    · split at h
      · cases h
        exact ⟨rfl, rfl⟩
      · split at h <;> cases h
        exact ⟨rfl, rfl⟩

theorem mapLast_counts (q : Queue) (old new : TokenType) :
    tokenCount (q.mapLast (Entry.retypeFrom old new)).toList = tokenCount q.toList ∧
      errorCount (q.mapLast (Entry.retypeFrom old new)).toList = errorCount q.toList := by
  rw [toList_mapLast, last?_eq]
  rcases List.eq_nil_or_concat q.toList with hq | ⟨before, last, hq⟩
  · simp [hq]
  · rw [hq, List.concat_eq_append]
    cases last <;> exact ⟨by simp [Entry.retypeFrom, tokenCount, Entry.type?],
      by simp [Entry.retypeFrom, errorCount, Entry.error?]⟩

end Queue

namespace Lexer

open Program (Relates)

/-- What happened to entries since the last input. -/
structure Ledger where
  delivered : List Entry := []
  dropped : List Entry := []

def Ledger.drop (ledger : Ledger) (tokens : List Entry) : Ledger :=
  { ledger with dropped := ledger.dropped ++ tokens }

def Ledger.deliver (ledger : Ledger) (entry : Entry) : Ledger :=
  { ledger with delivered := ledger.delivered ++ [entry] }

theorem Ledger.drop_nil (ledger : Ledger) : ledger.drop [] = ledger := by simp [drop]

theorem Ledger.drop_drop (ledger : Ledger) (xs ys : List Entry) :
    (ledger.drop xs).drop ys = ledger.drop (xs ++ ys) := by simp [drop]

def drops (l : Lexer) (token : Entry) : List Entry :=
  match l.queue.transformed token with
  | .ok none => [token]
  | _ => []

def lexemeToken (l : Lexer) (type : TokenType) : Entry :=
  .token type (.ofLexeme l.engine.lexemeText l.engine.lexemePosition)

def Step.drops : Step → Lexer → List Entry
  | .enqueue type, l =>
    if l.engine.recognition.isTerminal then [] else l.drops (l.lexemeToken type)
  | _, _ => []

/-- The tokens that are dropped while steps are performed, up to the first that fails. -/
def dropsOf : List Step → Lexer → List Entry
  | [], _ => []
  | s :: rest, l =>
    s.drops l ++ match s.run l with
      | .ok _ l' => dropsOf rest l'
      | .error _ _ => []

def fillDrops (n : Nat) (l : Lexer) : List Entry :=
  match Engine.scanLayout l.engine with
  | .ok outcome engine =>
    let l := { l with engine }
    match outcome with
    | some .indentation => l.drops (l.lexemeToken l.options.indentType)
    | some .lineEnd =>
      if l.options.eolTokens then l.drops (l.lexemeToken l.options.eolType) else []
    | some .endOfStream => []
    | some .token | none => dropsOf (l.modeSteps n) l.counted
  | .error _ _ => []

/-- What has become of the lexer `l`, with the ledger since the last input. Steps of the driver may
have failed, and modes may have been changed from outside. -/
inductive Keeps (l : Lexer) : Ledger → Lexer → Prop where
  | start : Keeps l {} l
  | input {ledger : Ledger} {a b : Lexer} {text : String} (h : Keeps l ledger a)
      (hset : setInput text a = .ok () b) : Keeps l {} b
  | fill {ledger : Ledger} {a : Lexer} (n : Nat) (h : Keeps l ledger a) :
      Keeps l (ledger.drop (fillDrops n a)) (Program.final (fillStep n a))
  | deliver {ledger : Ledger} {a : Lexer} {entry : Entry} {queue : Queue} (h : Keeps l ledger a)
      (hq : a.queue.dequeue = .ok (entry, queue)) :
      Keeps l (ledger.deliver entry) { a with queue }
  | modes {ledger : Ledger} {a : Lexer} (modes : Modes) (h : Keeps l ledger a) :
      Keeps l ledger { a with modes }
  | finish {ledger : Ledger} {a : Lexer} (h : Keeps l ledger a) :
      Keeps l ledger { a with finished := true }

/-- A moment of a run: between the steps of the driver, or between those of the rule that it
applies. -/
inductive Moment (l : Lexer) : Ledger → Lexer → Prop where
  | between {ledger : Ledger} {a : Lexer} (h : Keeps l ledger a) : Moment l ledger a
  | within {ledger : Ledger} {a : Lexer} {e : Engine} {n : Nat} {done rest : List Step}
      (h : Keeps l ledger a) (hlay : Engine.scanLayout a.engine = .ok none e)
      (hsteps : modeSteps n { a with engine := e } = done ++ rest) :
      Moment l (ledger.drop (dropsOf done { a with engine := e }.counted))
        (Program.final (perform done { a with engine := e }.counted))

/-- The counters agree with the ledger and the queue. -/
structure Balanced (ledger : Ledger) (l : Lexer) : Prop where
  emitted : l.stats.tokensEmitted = tokenCount ledger.delivered + tokenCount l.queue.toList
  captured : l.stats.errorsCaptured = errorCount ledger.delivered + errorCount l.queue.toList
  dropped : l.stats.tokensDropped = ledger.dropped.length
  layout : l.stats.eolTokens + l.stats.indentTokens ≤ l.stats.tokensEmitted

variable {ledger : Ledger} {l l' : Lexer}

/-- Only the queue and the counters matter. -/
theorem Balanced.same (h : Balanced ledger l) (hb : SameBooks l l') : Balanced ledger l' := by
  obtain ⟨hq, hs⟩ := hb
  constructor
  · rw [hs, hq]
    exact h.emitted
  · rw [hs, hq]
    exact h.captured
  · rw [hs]
    exact h.dropped
  · rw [hs]
    exact h.layout

theorem balanced_restarted (text : String) (l : Lexer) : Balanced {} (l.restarted text) :=
  ⟨rfl, rfl, rfl, Nat.le_refl _⟩

theorem Balanced.deliver (h : Balanced ledger l) {entry : Entry} {queue : Queue}
    (hq : l.queue.dequeue = .ok (entry, queue)) :
    Balanced (ledger.deliver entry) { l with queue } := by
  have hl := (Queue.dequeue_eq_ok hq).1
  constructor
  · simpa [Ledger.deliver, hl, tokenCount_cons entry queue.toList, Nat.add_assoc] using h.emitted
  · simpa [Ledger.deliver, hl, errorCount_cons entry queue.toList, Nat.add_assoc] using h.captured
  · exact h.dropped
  · exact h.layout

theorem Balanced.endQueued (h : Balanced ledger l) : Balanced ledger l.endQueued := by
  constructor
  · rw [endQueued_toList, tokenCount_append]
    exact h.emitted
  · rw [endQueued_toList, errorCount_append]
    exact h.captured
  · exact h.dropped
  · exact h.layout

theorem Balanced.errorQueued (h : Balanced ledger l) (e : LexError) :
    Balanced ledger (l.errorQueued e) := by
  constructor
  · rw [errorQueued_toList, tokenCount_append]
    exact h.emitted
  · rw [errorQueued_toList, errorCount_append]
    exact congrArg (· + 1) h.captured
  · exact h.dropped
  · exact h.layout

theorem Balanced.complained (h : Balanced ledger l) (e : LexError) (captured : Bool) :
    Balanced ledger (l.complained e captured) := by
  cases captured with
  | true => exact h
  | false => exact h.errorQueued e

theorem Balanced.counted (h : Balanced ledger l) : Balanced ledger l.counted :=
  ⟨h.emitted, h.captured, h.dropped, h.layout⟩

/-- A token that was offered is counted as queued or as dropped. If it was queued, one more token
for layout can be counted. -/
theorem Balanced.offered (h : Balanced ledger l) {type : TokenType} {token : Token}
    {reply : Option Entry} (ht : l.queue.transformed (.token type token) = .ok reply)
    (htokens : tokenCount l'.queue.toList = tokenCount l.queue.toList + tokenCount reply.toList)
    (herrors : errorCount l'.queue.toList = errorCount l.queue.toList + errorCount reply.toList)
    (hstats : l'.stats = l.stats.recordQueued reply.isSome) :
    Balanced (ledger.drop (l.drops (.token type token))) l' ∧
      (reply.isSome → l'.stats.eolTokens + l'.stats.indentTokens < l'.stats.tokensEmitted) := by
  obtain ⟨hone, hnone⟩ := Queue.transformed_counts ht
  have hemitted := h.emitted
  have hcaptured := h.captured
  have hdropped := h.dropped
  have hlayout := h.layout
  cases reply with
  | none =>
    have hdrops : l.drops (.token type token) = [.token type token] := by simp [drops, ht]
    simp only [Option.isSome_none, Bool.false_eq_true, ↓reduceIte] at hone
    refine ⟨⟨?_, ?_, ?_, ?_⟩, by simp⟩ <;>
      simp only [hstats, hdrops, htokens, herrors, hone, hnone, Stats.recordQueued, Ledger.drop,
        Option.isSome_none, Bool.false_eq_true, ↓reduceIte, List.length_append,
        List.length_singleton] <;>
      omega
  | some e =>
    have hdrops : l.drops (.token type token) = [] := by simp [drops, ht]
    simp only [Option.isSome_some, ↓reduceIte] at hone
    refine ⟨⟨?_, ?_, ?_, ?_⟩, fun _ => ?_⟩ <;>
      simp only [hstats, hdrops, htokens, herrors, hone, hnone, Stats.recordQueued, Ledger.drop_nil,
        Option.isSome_some, ↓reduceIte] <;>
      omega

theorem Balanced.enqueued (h : Balanced ledger l) {type : TokenType} {token : Token}
    {reply : Option Entry} {queue : Queue}
    (hq : l.queue.enqueue (.token type token) = .ok (reply, queue)) (engine : Engine) :
    let after : Lexer := { l with engine, queue, stats := l.stats.recordQueued reply.isSome }
    Balanced (ledger.drop (l.drops (.token type token))) after ∧
      (reply.isSome → after.stats.eolTokens + after.stats.indentTokens <
        after.stats.tokensEmitted) := by
  obtain ⟨ht, hl, -⟩ := Queue.enqueue_eq_ok hq
  exact h.offered ht (by simp [hl]) (by simp [hl]) rfl

theorem Balanced.pushedAhead (h : Balanced ledger l) {type : TokenType} {token : Token}
    {reply : Option Entry} {queue : Queue}
    (hq : l.queue.pushAhead (.token type token) = .ok (reply, queue)) :
    let after : Lexer := { l with queue, stats := l.stats.recordQueued reply.isSome }
    Balanced (ledger.drop (l.drops (.token type token))) after ∧
      (reply.isSome → after.stats.eolTokens + after.stats.indentTokens <
        after.stats.tokensEmitted) := by
  obtain ⟨ht, hl, -⟩ := Queue.pushAhead_eq_ok hq
  exact h.offered ht (by simp [hl, Nat.add_comm]) (by simp [hl, Nat.add_comm]) rfl

theorem drops_of_refusal {token : Entry} {fault : LexError}
    (h : l.queue.transformed token = .error fault) : l.drops token = [] := by
  simp [drops, h]

theorem enqueueToken_balanced (h : Balanced ledger l) (type : TokenType) :
    Balanced (ledger.drop ((Step.enqueue type).drops l)) (Program.final (enqueueToken type l)) := by
  have htoken : (Entry.token type (.ofLexeme l.engine.recognizedNow.lexemeText
      l.engine.recognizedNow.lexemePosition)) = l.lexemeToken type := by
    unfold Engine.recognizedNow
    split <;> rfl
  rw [enqueueToken_eq]
  dsimp only [Step.drops]
  split
  · rw [Ledger.drop_nil]
    exact h
  · rw [htoken]
    cases hq : l.queue.enqueue (l.lexemeToken type) with
    | ok r => exact (h.enqueued hq _).1
    | error fault =>
      rw [drops_of_refusal (Queue.enqueue_eq_error hq), Ledger.drop_nil]
      exact h.same ⟨rfl, rfl⟩

theorem Step.run_balanced (h : Balanced ledger l) (s : Step) :
    Balanced (ledger.drop (s.drops l)) (Program.final (s.run l)) := by
  have quiet : ∀ {b : Lexer}, SameBooks l b → Balanced (ledger.drop []) b := by
    intro b hb
    rw [Ledger.drop_nil]
    exact h.same hb
  cases s with
  | enqueue type =>
    rw [Step.run_enqueue, final_ending]
    exact enqueueToken_balanced h type
  | nextChar =>
    rw [Step.run_nextChar, final_ending]
    exact quiet (onEngine_books _ l)
  | scan p =>
    rw [Step.run_scan, final_ending]
    exact quiet (scanToken_books p l)
  | unknownToken =>
    rw [Step.run_unknownToken, final_ending]
    exact quiet (unknownToken_books l)
  | putBack => exact quiet (onEngine_books _ l)
  | message name args =>
    rw [Step.run_message, final_ending]
    exact quiet (builtIn_books name args l)
  | clear | halt => exact quiet ⟨rfl, rfl⟩
  | retype old new =>
    obtain ⟨htokens, herrors⟩ := l.queue.mapLast_counts old new
    change Balanced (ledger.drop []) _
    rw [Ledger.drop_nil]
    exact ⟨h.emitted.trans (congrArg _ htokens.symm), h.captured.trans (congrArg _ herrors.symm),
      h.dropped, h.layout⟩

/-- By induction on the steps, which may end in one that fails. -/
theorem perform_balanced (h : Balanced ledger l) (steps : List Step) :
    Balanced (ledger.drop (dropsOf steps l)) (Program.final (perform steps l)) := by
  induction steps generalizing l ledger with
  | nil =>
    rw [dropsOf, Ledger.drop_nil]
    exact h
  | cons s rest ih =>
    have hs := s.run_balanced h
    rw [dropsOf, perform, Program.bind_apply, ← Ledger.drop_drop]
    cases hr : s.run l with
    | ok _ l' =>
      rw [hr] at hs
      exact ih hs
    | error stop l' =>
      rw [hr] at hs
      simpa [Ledger.drop_nil] using hs

theorem settle_balanced (h : Balanced ledger l) (rule : String) (start : Mark)
    (captured : Bool) : Balanced ledger (Program.final (settle rule start captured l)) := by
  rw [settle_eq]
  split
  · exact h.same ⟨rfl, rfl⟩
  · exact h.same ⟨rfl, rfl⟩
  · exact h.endQueued
  · exact (h.complained _ captured).endQueued
  · split
    · exact (h.complained _ captured).same (skipChar_books _)
    · exact h
  · split
    · exact (h.complained _ captured).same (skipChar_books _)
    · exact h
  · exact h

theorem ruleRun_balanced (h : Balanced ledger l) (hops : l.operations = []) (r : Rule) (n : Nat) :
    Balanced (ledger.drop (dropsOf (r.steps (respondSteps n) l) l))
      (Program.final (r.run (respond n) l)) := by
  rw [← final_ending, Rule.run_eq_perform (respond_answers n) r l hops]
  exact perform_balanced h _

theorem applyModeRule_balanced (h : Balanced ledger l) (hops : l.operations = []) (n : Nat) :
    Balanced (ledger.drop (dropsOf (l.modeSteps n) l.counted))
      (Program.final (applyModeRule n l)) := by
  rw [applyModeRule_eq, modeSteps]
  cases l.options.ruleFor? l.modes.current with
  | none => simpa [dropsOf, Ledger.drop_nil] using h
  | some name =>
    dsimp only [Option.bind_some]
    cases l.ruleset.rule? name with
    | none => simpa [dropsOf, Ledger.drop_nil] using h
    | some r =>
      have hrun := ruleRun_balanced h.counted hops r n
      have hcap := capturing_relates (R := fun _ b => Balanced _ b) hrun
        fun e _ _ hb => hb.errorQueued e
      dsimp only
      cases hc : capturing (r.run (respond n)) l.counted with
      | error stop l₁ =>
        rw [hc] at hcap
        exact hcap
      | ok captured l₁ =>
        rw [hc] at hcap
        exact settle_balanced hcap name l.engine.toMark captured

/-- A token for layout is counted a second time, as such. -/
theorem Balanced.layoutCounted (h : Balanced ledger l)
    (hlt : l.stats.eolTokens + l.stats.indentTokens < l.stats.tokensEmitted) {stats : Stats}
    (he : stats.tokensEmitted = l.stats.tokensEmitted)
    (hc : stats.errorsCaptured = l.stats.errorsCaptured)
    (hd : stats.tokensDropped = l.stats.tokensDropped)
    (hl : stats.eolTokens + stats.indentTokens =
      l.stats.eolTokens + l.stats.indentTokens + 1) : Balanced ledger { l with stats } where
  emitted := he.trans h.emitted
  captured := hc.trans h.captured
  dropped := hd.trans h.dropped
  layout := by
    dsimp only
    omega

theorem enqueueIndent_balanced (h : Balanced ledger l)
    (hr : l.engine.recognition = .recognized) :
    Balanced (ledger.drop (l.drops (l.lexemeToken l.options.indentType)))
      (Program.final (enqueueIndent l)) := by
  rw [enqueueIndent_eq hr]
  cases hq : l.queue.enqueue (l.lexemeToken l.options.indentType) with
  | error fault =>
    rw [lexemeToken] at hq
    simp only [hq, Program.final_error]
    rw [lexemeToken, drops_of_refusal (Queue.enqueue_eq_error hq), Ledger.drop_nil]
    exact h.same ⟨rfl, rfl⟩
  | ok r =>
    obtain ⟨reply, queue⟩ := r
    obtain ⟨hbalanced, hlayout⟩ := h.enqueued hq l.engine.clearLexeme
    rw [lexemeToken] at hq
    simp only [hq, Program.final_ok]
    cases reply with
    | none => exact hbalanced
    | some e => exact hbalanced.layoutCounted (hlayout rfl) rfl rfl rfl (by simp; omega)

theorem enqueueLineEnd_balanced (h : Balanced ledger l) :
    Balanced (ledger.drop
        (if l.options.eolTokens then l.drops (l.lexemeToken l.options.eolType) else []))
      (Program.final (enqueueLineEnd l)) := by
  rw [enqueueLineEnd_eq]
  split
  · cases hq : l.queue.pushAhead l.lineEndToken with
    | error fault =>
      rw [show l.lexemeToken l.options.eolType = l.lineEndToken from rfl,
        drops_of_refusal (Queue.pushAhead_eq_error hq), Ledger.drop_nil]
      exact h
    | ok r =>
      obtain ⟨reply, queue⟩ := r
      obtain ⟨hbalanced, hlayout⟩ := h.pushedAhead hq
      cases reply with
      | none => exact hbalanced
      | some e => exact hbalanced.layoutCounted (hlayout rfl) rfl rfl rfl (by simp; omega)
  · rw [Ledger.drop_nil]
    exact h

theorem fillStep_balanced (h : Balanced ledger l) (hops : l.operations = []) (n : Nat) :
    Balanced (ledger.drop (fillDrops n l)) (Program.final (fillStep n l)) := by
  by_cases hs : l.engine.Scannable
  · obtain ⟨o, e, hlay⟩ := Engine.scanLayout_total hs
    have hlaid := (Engine.scanLayout_eq_ok_iff.mp hlay).2
    have hl : Balanced ledger { l with engine := e } := h.same ⟨rfl, rfl⟩
    rw [fillStep_eq n hlay, fillDrops, hlay]
    cases o with
    | none => exact applyModeRule_balanced hl hops n
    | some outcome =>
      cases outcome with
      | indentation => exact enqueueIndent_balanced hl hlaid.indentation_recognized
      | lineEnd => exact enqueueLineEnd_balanced hl
      | endOfStream =>
        dsimp only
        rw [Ledger.drop_nil]
        exact hl.endQueued
      | token => cases hlaid
  · obtain ⟨fault, -, hf⟩ := fillStep_refuses n hs
    obtain ⟨fault', -, hlay⟩ := Engine.scanLayout_refuses hs
    rw [hf, fillDrops, hlay]
    simpa [Ledger.drop_nil] using h

/-- By induction on what has become of the lexer, with what it was made of unchanged. -/
theorem Keeps.balanced {a : Lexer} (hk : Keeps l ledger a) (hops : l.operations = [])
    (h : Balanced {} l) : Balanced ledger a ∧ a.operations = [] := by
  induction hk with
  | start => exact ⟨h, hops⟩
  | @input ledger a b text _ hset ih =>
    rw [setInput_eq] at hset
    split at hset
    · cases hset
    · cases hset
      exact ⟨balanced_restarted text a, ih.2⟩
  | fill n _ ih =>
    exact ⟨fillStep_balanced ih.1 ih.2 n, (fillStep_frame n ih.2).operations.trans ih.2⟩
  | deliver _ hq ih => exact ⟨ih.1.deliver hq, ih.2⟩
  | modes _ _ ih | finish _ ih => exact ⟨ih.1.same ⟨rfl, rfl⟩, ih.2⟩

theorem Moment.balanced {a : Lexer} (hm : Moment l ledger a) (hops : l.operations = [])
    (h : Balanced {} l) : Balanced ledger a := by
  cases hm with
  | between hk => exact (hk.balanced hops h).1
  | @within ledger a e n done rest hk =>
    have ha : Balanced ledger { a with engine := e } := (hk.balanced hops h).1.same ⟨rfl, rfl⟩
    exact perform_balanced ha.counted done

def queueDrops (n : Nat) : (rounds : Nat) → Lexer → List Entry
  | 0, _ => []
  | rounds + 1, l =>
    if l.queue.isEmpty then
      fillDrops n l ++ match fillStep n l with
        | .ok _ l' => queueDrops n rounds l'
        | .error _ _ => []
    else []

def callDrops (n : Nat) (l : Lexer) : List Entry :=
  if l.queue.isEmpty ∧ (l.engine.recognition = .ready ∨ l.engine.recognition = .recognized) then
    queueDrops n n l
  else []

def Ledger.called (ledger : Ledger) (n : Nat) (l : Lexer) : Ledger where
  delivered := ledger.delivered ++ entries [answer (nextToken n l)]
  dropped := ledger.dropped ++ callDrops n l

/-- The ledger after a history of requests. It starts anew with every input that is accepted. -/
def ledgerOf (l : Lexer) (ledger : Ledger) : List Request → Ledger
  | [] => ledger
  | .input text :: rest =>
    (l.served (.input text)).ledgerOf
      (if l.engine.recognition = .tokenizing then ledger else {}) rest
  | .entry n :: rest => (l.served (.entry n)).ledgerOf (ledger.called n l) rest

theorem Keeps.fillQueue {a : Lexer} (h : Keeps l ledger a) (n rounds : Nat) :
    Keeps l (ledger.drop (queueDrops n rounds a)) (Program.final (fillQueue n rounds a)) := by
  induction rounds generalizing ledger a with
  | zero =>
    rw [queueDrops, Ledger.drop_nil]
    exact h
  | succ rounds ih =>
    by_cases hq : a.queue.toList = []
    · have hfill := h.fill n
      rw [queueDrops, if_pos ((Queue.isEmpty_iff _).mpr hq), fillQueue_empty hq,
        ← Ledger.drop_drop]
      cases hstep : fillStep n a with
      | ok _ b =>
        rw [hstep] at hfill
        exact ih hfill
      | error stop b =>
        rw [hstep] at hfill
        simpa [Ledger.drop_nil] using hfill
    · rw [queueDrops, if_neg (by rwa [Queue.isEmpty_iff]), fillQueue_full hq n (by omega),
        Ledger.drop_nil]
      exact h

theorem entries_error (stop : Stop) : entries [.error stop] = [] := rfl

theorem Keeps.dequeue {a : Lexer} (h : Keeps l ledger a) :
    Keeps l { ledger with
        delivered := ledger.delivered ++ entries [answer (onQueue QueueM.dequeue a)] }
      (Program.final (onQueue QueueM.dequeue a)) := by
  rw [onQueue_dequeue]
  cases hq : a.queue.dequeue with
  | ok r => exact h.deliver hq
  | error fault => simpa [answer, entries_error] using h

/-- A call for the next entry, whether it succeeds or not. -/
theorem Keeps.called {a : Lexer} (h : Keeps l ledger a) (n : Nat) :
    Keeps l (ledger.called n a) (Program.final (nextToken n a)) := by
  rcases nextToken_cases n a with ⟨he, hr, hnext⟩ | ⟨hidle, hnext⟩
  · have hfill := h.fillQueue n n
    rw [Ledger.called, callDrops, if_pos ⟨he, hr⟩, hnext]
    cases hf : Lexer.fillQueue n n a with
    | ok _ b =>
      rw [hf] at hfill
      exact hfill.dequeue
    | error stop b =>
      rw [hf] at hfill
      simpa [answer, entries_error, Ledger.drop] using hfill
  · rw [Ledger.called, callDrops, if_neg hidle, List.append_nil]
    rcases hnext with hnext | ⟨stop, hnext⟩
    · rw [hnext]
      exact h.dequeue
    · simpa [hnext, answer, entries_error] using h

/-- The next entry of the stream, which stops at the end marker or at the first failure. -/
theorem Keeps.streamed {a : Lexer} (h : Keeps l ledger a) (n : Nat) :
    Keeps l (if a.finished then ledger else ledger.called n a) (Program.final (next? n a)) := by
  have hcall := h.called n
  unfold next?
  split
  · exact h
  · cases hr : nextToken n a with
    | error stop b =>
      rw [hr] at hcall
      exact hcall.finish
    | ok entry b =>
      rw [hr] at hcall
      dsimp only [Program.final_ok]
      split
      · exact hcall.finish
      · exact hcall

theorem Keeps.driven {a : Lexer} (h : Keeps l ledger a) (history : List Request) :
    Keeps l (a.ledgerOf ledger history) (a.driven history) := by
  induction history generalizing a ledger with
  | nil => exact h
  | cons r history ih =>
    cases r with
    | entry n => exact ih (h.called n)
    | input text =>
      rw [ledgerOf, Lexer.driven]
      apply ih
      rw [served, setInput_eq]
      split
      · exact h
      · next ht => exact h.input ((setInput_eq text a).trans (if_neg ht))

/-- The counters account for every entry. For a lexer without registered operations, the ledger of
any history of requests goes along with it, and so it does if the entries are asked for as a
stream; and at every moment of a run, between steps of the driver or of a rule and after failures,
the counters are in balance with the ledger and the queue. -/
theorem counters_account {rs : Ruleset} {options : Options} {l₀ : Lexer}
    (hnew : new rs options = .ok l₀) :
    (∀ history, Keeps l₀ (l₀.ledgerOf {} history) (l₀.driven history)) ∧
    (∀ ledger l n, Keeps l₀ ledger l →
      Keeps l₀ (if l.finished then ledger else ledger.called n l) (Program.final (next? n l))) ∧
    ∀ ledger l, Moment l₀ ledger l → Balanced ledger l := by
  obtain ⟨hops, hbalanced⟩ : l₀.operations = [] ∧ Balanced {} l₀ := by
    obtain ⟨-, -, -, -, rfl⟩ := new_eq_ok_iff.mp hnew
    exact ⟨rfl, rfl, rfl, rfl, Nat.le_refl _⟩
  refine ⟨fun history => Keeps.start.driven history, fun _ _ n hk => hk.streamed n, ?_⟩
  intro ledger l hm
  exact hm.balanced hops hbalanced

def droppingRules : Ruleset :=
  { types := some
      [(.symbol "A", "a letter that is kept"), (.symbol "B", "a letter that is dropped")]
    rules := [{ name := "main", kind := .lookahead
                handlers := [⟨.char 'a', .enqueue (.symbol "A")⟩,
                  ⟨.char 'b', .enqueue (.symbol "B")⟩]
                otherwise := .send "unknown_token" [] }] }

def droppingOptions : Options :=
  { eolTokens := true, transforms := [⟨.symbol "B", fun _ => none⟩] }

def droppingLexer : Lexer :=
  { engine := .new droppingOptions.engineConfig
    queue := ⟨[], [], droppingOptions.transforms⟩
    ruleset := droppingRules
    options := droppingOptions }

/-- Two tokens and an error were delivered, one of them for a line end, and two tokens dropped. -/
theorem dropping_accounts :
    let history : List Request := [.input "bab\n?", .entry 9, .entry 9, .entry 9]
    new droppingRules droppingOptions = .ok droppingLexer ∧
      (droppingLexer.driven history).stats =
        { rulesApplied := 4, tokensEmitted := 2, tokensDropped := 2, errorsCaptured := 1,
          eolTokens := 1, indentTokens := 0 } ∧
      (droppingLexer.ledgerOf {} history).dropped.length = 2 ∧
      Balanced (droppingLexer.ledgerOf {} history) (droppingLexer.driven history) := by
  have hnew : new droppingRules droppingOptions = .ok droppingLexer := rfl
  obtain ⟨hkept, -, hbalanced⟩ := counters_account hnew
  exact ⟨hnew, by decide +kernel, by decide +kernel, hbalanced _ _ (.between (hkept _))⟩

end Lexer
end TableLexer
