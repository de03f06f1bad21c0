import TableLexer.Proofs.EndOfStream
import TableLexer.Proofs.Engine.Ending
import TableLexer.Proofs.Lexer.Commands
import TableLexer.Proofs.LineEnds
import TableLexer.Proofs.Reentry

/-!
# Where the end of the stream stands

The end marker takes the scan position of the moment when the driver notices that scanning has
ended. A rule may go on after its engine has come to the end, and what it does then moves the
position in one case only: it puts a lexeme back. So the marker stands at the end of the text
unless a rule has retreated from there.
-/
namespace TableLexer.Lexer

open Engine (Command)

variable {l l' a b : Lexer} {text : List Char} {back : Bool}

instance : DecidablePred Step.Rewinds
  | .putBack => isTrue trivial
  | .message name _ => inferInstanceAs (Decidable (Action.rewinds name = true))
  | .nextChar | .scan _ | .enqueue _ | .unknownToken | .clear | .retype _ _ | .halt _ => isFalse id

/-- The step moves the scan position back although scanning has ended. -/
def Step.retreats (s : Step) (l : Lexer) : Bool :=
  decide (s.Rewinds ∧ l.engine.Over ∧ l.engine.lexeme ≠ [])

def retreat : List Step → Lexer → Bool
  | [], _ => false
  | s :: rest, l =>
    s.retreats l || match s.run l with
      | .ok _ l' => retreat rest l'
      | .error _ _ => false

def fillRetreats (n : Nat) (l : Lexer) : Bool :=
  match Engine.scanLayout l.engine with
  | .ok none engine => retreat (modeSteps n { l with engine }) { l with engine }.counted
  | _ => false

def queueRetreats (n : Nat) : (rounds : Nat) → Lexer → Bool
  | 0, _ => false
  | rounds + 1, l =>
    if l.queue.isEmpty then
      fillRetreats n l || match fillStep n l with
        | .ok _ l' => queueRetreats n rounds l'
        | .error _ _ => false
    else false

def callRetreats (n : Nat) (l : Lexer) : Bool :=
  if l.queue.isEmpty ∧ (l.engine.recognition = .ready ∨ l.engine.recognition = .recognized) then
    queueRetreats n n l
  else false

/-- What the lexer `l` has become in use, with the text it was given last and whether a rule has
retreated since. Steps of the driver may have failed, and modes may have been changed from
outside. -/
inductive InUse (l : Lexer) : List Char → Bool → Lexer → Prop where
  | start : InUse l l.engine.input false l
  | input {text : List Char} {back : Bool} {a b : Lexer} {new : String} (h : InUse l text back a)
      (hset : setInput new a = .ok () b) : InUse l new.toList false b
  | fill {text : List Char} {back : Bool} {a : Lexer} (n : Nat) (h : InUse l text back a) :
      InUse l text (back || fillRetreats n a) (Program.final (fillStep n a))
  | deliver {text : List Char} {back : Bool} {a : Lexer} {entry : Entry} {queue : Queue}
      (h : InUse l text back a) (hq : a.queue.dequeue = .ok (entry, queue)) :
      InUse l text back { a with queue }
  | modes {text : List Char} {back : Bool} {a : Lexer} (modes : Modes) (h : InUse l text back a) :
      InUse l text back { a with modes }
  | finish {text : List Char} {back : Bool} {a : Lexer} (h : InUse l text back a) :
      InUse l text back { a with finished := true }

structure Running (back : Bool) (l : Lexer) : Prop where
  engine : l.engine.Sited back
  queue : l.queue.AllPlain

structure Placed (back : Bool) (l : Lexer) : Prop where
  engine : l.engine.Sited back
  queue : ∀ e ∈ l.queue.toList, e.Plain ∨
    l.engine.Over ∧ e = .endOfStream (.endOfStream l.engine.currentPosition)

theorem Running.placed (h : Running back l) : Placed back l :=
  ⟨h.engine, fun e he => .inl (h.queue e he)⟩

theorem Placed.running (h : Placed back l) (hl : ¬ l.engine.Over) : Running back l :=
  ⟨h.engine, fun e he => (h.queue e he).resolve_right fun hend => hl hend.1⟩

/-- Where the engine has not moved and the books are the same. -/
theorem Running.moved (h : Running back l) (he : l'.engine.Sited back) (hb : SameBooks l l') :
    Running back l' := ⟨he, hb.queue ▸ h.queue⟩

theorem Step.commands_forward {s : Step} (h : ¬ s.Rewinds) : ∀ c ∈ s.commands, c.Forward := by
  cases s with
  | putBack => exact absurd trivial h
  | message name args =>
    have hn : Action.rewinds name = false := by simpa [Rewinds] using h
    change ∀ c ∈ messageCommands name, c.Forward
    unfold messageCommands
    split <;> simp_all [Action.rewinds, Command.Forward]
  | _ => simp [commands, Command.Forward]

/-- The one way to rewind without a return to a snapshot is to put the lexeme back. -/
theorem Step.run_rewinding {s : Step} (hs : s.Onward) (hr : s.Rewinds) (l : Lexer) :
    (Program.final (s.run l)).engine = l.engine.undone := by
  cases s with
  | putBack => simp [run, onEngine, Engine.undoScan_eq]
  | message name args =>
    have hn : name = "undo_scan" ∨ name = "restore_snapshot" := by
      simpa [Rewinds, Action.rewinds] using hr
    obtain rfl : name = "undo_scan" := by
      refine hn.resolve_right ?_
      rintro rfl
      exact hs args rfl
    simp [run, builtIn, onEngine, Engine.undoScan_eq]
  | _ => exact hr.elim

theorem Step.run_sited {s : Step} (hs : s.Onward) (h : l.engine.Sited back) :
    (Program.final (s.run l)).engine.Sited (back || s.retreats l) := by
  by_cases hr : s.Rewinds
  · rw [Step.run_rewinding hs hr]
    simpa [retreats, hr] using h.undone
  · obtain ⟨cs, hcs, he⟩ := s.run_leads l
    have hno : s.retreats l = false := by simp [retreats, hr]
    rw [he, hno, Bool.or_false]
    exact h.after fun c hc => Step.commands_forward hr c (hcs c hc)

theorem enqueueToken_plain (hq : l.queue.AllPlain) (type : TokenType) :
    (Program.final (enqueueToken type l)).queue.AllPlain := by
  rw [enqueueToken_eq]
  split
  · exact hq
  · dsimp only
    split
    · next h => exact hq.enqueue (by trivial) h
    · exact hq

theorem Step.run_plain (s : Step) (hq : l.queue.AllPlain) :
    (Program.final (s.run l)).queue.AllPlain := by
  have quiet : ∀ {b : Lexer}, SameBooks l b → b.queue.AllPlain := fun hb => hb.queue ▸ hq
  cases s with
  | enqueue type =>
    rw [Step.run_enqueue, final_ending]
    exact enqueueToken_plain hq type
  | nextChar =>
    rw [Step.run_nextChar, final_ending]
    exact quiet (onEngine_books _ l)
  | scan p =>
    rw [Step.run_scan, final_ending]
    exact quiet (scanToken_books p l)
  | unknownToken =>
    rw [Step.run_unknownToken, final_ending]
    exact quiet (unknownToken_books l)
  | putBack => exact quiet (onEngine_books _ l)
  | message name args =>
    rw [Step.run_message, final_ending]
    exact quiet (builtIn_books name args l)
  | clear | halt => exact hq
  | retype old new => exact hq.mapLast fun _ => Entry.Plain.retypeFrom old new

/-- By induction on the steps, which may end in one that fails. -/
theorem perform_running {steps : List Step} (hs : ∀ s ∈ steps, s.Onward) (h : Running back l) :
    Running (back || retreat steps l) (Program.final (perform steps l)) := by
  induction steps generalizing l back with
  | nil =>
    rw [retreat, Bool.or_false]
    exact h
  | cons s rest ih =>
    obtain ⟨honward, hrest⟩ := List.forall_mem_cons.mp hs
    have hstep : Running (back || s.retreats l) (Program.final (s.run l)) :=
      ⟨Step.run_sited honward h.engine, s.run_plain h.queue⟩
    rw [retreat, perform, Program.bind_apply, ← Bool.or_assoc]
    cases hr : s.run l with
    | ok _ l' =>
      rw [hr] at hstep
      exact ih hrest hstep
    | error stop l' =>
      rw [hr] at hstep
      simpa using hstep

theorem Running.complained (h : Running back l) {e : LexError} (he : e.kind = .lexical)
    (captured : Bool) : Running back (l.complained e captured) :=
  ⟨(complained_engine e captured l).symm ▸ h.engine, complained_plain he captured h.queue⟩

theorem Running.endQueued (h : Running back l) (hl : l.engine.Over) : Placed back l.endQueued := by
  refine ⟨h.engine, fun e he => ?_⟩
  rw [endQueued_toList, List.mem_append, List.mem_singleton] at he
  exact he.imp (h.queue e) fun heq => ⟨hl, heq⟩

theorem Running.skipChar (h : Running back l) : Running back (Program.final (skipChar l)) := by
  obtain ⟨cs, hcs, he⟩ := skipChar_leads (C := Command.Forward) trivial trivial l
  exact h.moved (he ▸ h.engine.after hcs) (skipChar_books l)

theorem settle_placed (h : Running back l) (rule : String) (start : Mark) (captured : Bool) :
    Placed back (Program.final (settle rule start captured l)) := by
  have hrest : Running back { l with engine := l.engine.rested } := by
    have hreset := h.engine.next (c := .resetRecognition) trivial
    rw [Engine.next, Engine.resetRecognition_eq] at hreset
    exact h.moved hreset ⟨rfl, rfl⟩
  rw [settle_eq]
  split
  · exact hrest.placed
  · exact hrest.placed
  · next hr => exact h.endQueued (.inl hr)
  · next hr =>
    refine (h.complained (by rfl) captured).endQueued (.inr ?_)
    rw [complained_engine, hr]
  · split
    · exact (h.complained (by rfl) captured).skipChar.placed
    · exact h.placed
  · split
    · exact (h.complained (by rfl) captured).skipChar.placed
    · exact h.placed
  · exact h.placed

theorem applyModeRule_placed (hops : l.operations = [])
    (hon : l.ruleset.NeverSends "restore_snapshot") (h : Running back l) (n : Nat) :
    Placed (back || retreat (l.modeSteps n) l.counted) (Program.final (applyModeRule n l)) := by
  rw [applyModeRule_eq, modeSteps]
  cases l.options.ruleFor? l.modes.current with
  | none => simpa [retreat] using h.placed
  | some name =>
    dsimp only [Option.bind_some]
    cases hr : l.ruleset.rule? name with
    | none => simpa [retreat] using h.placed
    | some r =>
      have hrun : Running (back || retreat (r.steps (respondSteps n) l.counted) l.counted)
          (Program.final (r.run (respond n) l.counted)) := by
        rw [← final_ending, Rule.run_eq_perform (respond_answers n) r l.counted hops]
        exact perform_running (hon.allows.ruleSteps (Ruleset.mem_of_rule? hr) n rfl)
          ⟨h.engine, h.queue⟩
      have hcap := capturing_relates (R := fun _ c => Running _ c) hrun
        fun e c hk hc => ⟨hc.engine, errorQueued_plain hk hc.queue⟩
      dsimp only
      cases hc : capturing (r.run (respond n)) l.counted with
      | error stop l₁ =>
        rw [hc] at hcap
        exact hcap.placed
      | ok captured l₁ =>
        rw [hc] at hcap
        exact settle_placed hcap name l.engine.toMark captured

theorem enqueueIndent_placed (h : Running back l) (hr : l.engine.recognition = .recognized) :
    Placed back (Program.final (enqueueIndent l)) := by
  have hclear := h.engine.next (c := .clearLexeme) trivial
  rw [enqueueIndent_eq hr]
  split
  · next hq => exact Running.placed ⟨hclear, h.queue.enqueue (by trivial) hq⟩
  · exact Running.placed ⟨hclear, h.queue⟩

theorem enqueueLineEnd_placed (h : Running back l) :
    Placed back (Program.final (enqueueLineEnd l)) := by
  rw [enqueueLineEnd_eq]
  split
  · split
    · next hq => exact Running.placed ⟨h.engine, h.queue.pushAhead (by trivial) hq⟩
    · exact h.placed
  · exact h.placed

theorem fillStep_placed (hops : l.operations = [])
    (hon : l.ruleset.NeverSends "restore_snapshot") (h : Placed back l) (n : Nat) :
    Placed (back || fillRetreats n l) (Program.final (fillStep n l)) := by
  by_cases hs : l.engine.Scannable
  · obtain ⟨o, e, hlay⟩ := Engine.scanLayout_total hs
    have hlaid := (Engine.scanLayout_eq_ok_iff.mp hlay).2
    have hrunning := h.running fun hover => hover.not_scannable hs
    have hsited : e.Sited back := by
      have hnext := h.engine.next (c := .scanLayout) trivial
      rwa [Engine.next, hlay] at hnext
    have hl : Running back { l with engine := e } := ⟨hsited, hrunning.queue⟩
    rw [fillStep_eq n hlay, fillRetreats, hlay]
    cases o with
    | none => exact applyModeRule_placed (l := { l with engine := e }) hops hon hl n
    | some outcome =>
      rw [Bool.or_false]
      cases hlaid with
      | indentation => exact enqueueIndent_placed hl rfl
      | lineEnd => exact enqueueLineEnd_placed hl
      | endOfStream => exact hl.endQueued (Engine.ended_over _)
  · obtain ⟨fault, -, hf⟩ := fillStep_refuses n hs
    obtain ⟨fault', -, hlay⟩ := Engine.scanLayout_refuses hs
    rw [hf, fillRetreats, hlay]
    simpa using h

theorem InUse.make (h : InUse l text back a) (hops : l.operations = []) :
    a.operations = [] ∧ a.ruleset = l.ruleset ∧ a.engine.input = text := by
  induction h with
  | start => exact ⟨hops, rfl, rfl⟩
  | input _ hset ih =>
    rw [setInput_eq] at hset
    split at hset
    · cases hset
    · cases hset
      exact ⟨ih.1, ih.2.1, rfl⟩
  | fill n _ ih =>
    have hframe := fillStep_frame n ih.1
    exact ⟨hframe.operations.trans ih.1, hframe.ruleset.trans ih.2.1,
      hframe.text.input.trans ih.2.2⟩
  | deliver _ _ ih | modes _ _ ih | finish _ ih => exact ih

theorem new_placed {rs : Ruleset} {options : Options} (hnew : new rs options = .ok l) :
    Placed false l := by
  obtain ⟨-, -, -, -, rfl⟩ := new_eq_ok_iff.mp hnew
  exact ⟨Engine.new_sited _, by simp [Queue.toList]⟩

theorem restarted_placed (text : String) (l : Lexer) : Placed false (l.restarted text) :=
  ⟨Engine.restarted_sited text.toList l.engine, by simp [restarted, Queue.clear, Queue.toList]⟩

/-- By induction on what the lexer has become. -/
theorem InUse.placed (h : InUse l text back a) (hops : l.operations = [])
    (hon : l.ruleset.NeverSends "restore_snapshot") (hl : Placed false l) : Placed back a := by
  induction h with
  | start => exact hl
  | @input _ _ a b new _ hset ih =>
    rw [setInput_eq] at hset
    split at hset
    · cases hset
    · cases hset
      exact restarted_placed new a
  | fill n h ih =>
    obtain ⟨hops', hset, -⟩ := h.make hops
    exact fillStep_placed hops' (hset ▸ hon) ih n
  | deliver _ hq ih =>
    refine ⟨ih.engine, fun e he => ih.queue e ?_⟩
    rw [(Queue.dequeue_eq_ok hq).1]
    exact List.mem_cons_of_mem _ he
  | modes _ _ ih | finish _ ih => exact ⟨ih.engine, ih.queue⟩

theorem InUse.fillQueue (h : InUse l text back a) (n rounds : Nat) :
    InUse l text (back || queueRetreats n rounds a) (Program.final (fillQueue n rounds a)) := by
  induction rounds generalizing back a with
  | zero =>
    rw [queueRetreats, Bool.or_false]
    exact h
  | succ rounds ih =>
    by_cases hq : a.queue.toList = []
    · have hfill := h.fill n
      rw [queueRetreats, if_pos ((Queue.isEmpty_iff _).mpr hq), fillQueue_empty hq,
        ← Bool.or_assoc]
      cases hstep : fillStep n a with
      | ok _ b =>
        rw [hstep] at hfill
        exact ih hfill
      | error stop b =>
        rw [hstep] at hfill
        simpa using hfill
    · rw [queueRetreats, if_neg (by rwa [Queue.isEmpty_iff]), fillQueue_full hq n (by omega),
        Bool.or_false]
      exact h

/-- A call for the next entry ends with what is first in the queue, or fails. -/
theorem InUse.call (h : InUse l text back a) (n : Nat) :
    ∃ c, InUse l text (back || callRetreats n a) c ∧
      (nextToken n a = onQueue QueueM.dequeue c ∨ ∃ stop, nextToken n a = .error stop c) := by
  rcases nextToken_cases n a with ⟨he, hr, hnext⟩ | ⟨hidle, hnext⟩
  · have hfill := h.fillQueue n n
    rw [callRetreats, if_pos ⟨he, hr⟩, hnext]
    cases hf : Lexer.fillQueue n n a with
    | ok _ c =>
      rw [hf] at hfill
      exact ⟨c, hfill, .inl rfl⟩
    | error stop c =>
      rw [hf] at hfill
      exact ⟨c, hfill, .inr ⟨stop, rfl⟩⟩
  · rw [callRetreats, if_neg hidle, Bool.or_false]
    exact ⟨a, h, hnext⟩

/-- After a call for the next entry, whether it succeeds or not. -/
theorem InUse.called (h : InUse l text back a) (n : Nat) :
    InUse l text (back || callRetreats n a) (Program.final (nextToken n a)) := by
  obtain ⟨c, hc, heq | ⟨stop, heq⟩⟩ := h.call n
  · rw [heq, onQueue_dequeue]
    cases hq : c.queue.dequeue with
    | ok r => exact hc.deliver hq
    | error fault => exact hc
  · rw [heq]
    exact hc

theorem retreat_eq_false {steps : List Step} (h : ∀ s ∈ steps, ¬ s.Rewinds) (l : Lexer) :
    retreat steps l = false := by
  induction steps generalizing l with
  | nil => rfl
  | cons s rest ih =>
    obtain ⟨hs, hrest⟩ := List.forall_mem_cons.mp h
    have hno : s.retreats l = false := by simp [Step.retreats, hs]
    rw [retreat, hno, Bool.false_or]
    cases s.run l with
    | ok _ l' => exact ih hrest l'
    | error stop l' => rfl

theorem modeSteps_allowed {P : Step → Prop} (h : l.ruleset.Allows P) (n : Nat) :
    ∀ s ∈ l.modeSteps n, P s := by
  unfold modeSteps
  split
  · next r hr =>
    obtain ⟨name, -, hname⟩ := Option.bind_eq_some_iff.mp hr
    exact h.ruleSteps (Ruleset.mem_of_rule? hname) n rfl
  · simp

theorem fillRetreats_eq_false (h : l.ruleset.NeverRewinds) (n : Nat) :
    fillRetreats n l = false := by
  unfold fillRetreats
  split
  · next e _ =>
    exact retreat_eq_false (modeSteps_allowed (l := { l with engine := e }) h.allows n) _
  · rfl

theorem InUse.never_retreats (h : InUse l text back a) (hops : l.operations = [])
    (hnever : l.ruleset.NeverRewinds) : back = false := by
  induction h with
  | start | input => rfl
  | fill n h ih =>
    rw [ih, Bool.false_or]
    exact fillRetreats_eq_false ((h.make hops).2.1 ▸ hnever) n
  | deliver _ _ ih | modes _ _ ih | finish _ ih => exact ih

/-- The end marker that is first in the queue stands where the engine does, in the text and at its
end unless there was a retreat. -/
theorem Placed.marker (h : Placed back l) {token : Token} {queue : Queue}
    (hq : l.queue.dequeue = .ok (.endOfStream token, queue)) :
    token.position = l.engine.currentPosition ∧ token.position.offset ≤ l.engine.input.length ∧
      (token.position.offset = l.engine.input.length ↔ back = false) := by
  have hmem : Entry.endOfStream token ∈ l.queue.toList := by simp [(Queue.dequeue_eq_ok hq).1]
  obtain ⟨hover, htoken⟩ := (h.queue _ hmem).resolve_left id
  cases htoken
  change _ ∧ l.engine.pos ≤ _ ∧ (l.engine.pos = _ ↔ _)
  cases back with
  | false =>
    have hend := (h.engine.ends rfl).at_end hover
    exact ⟨rfl, Nat.le_of_eq hend, by simp [hend]⟩
  | true =>
    have hlt := (h.engine.returned rfl).2.2
    exact ⟨rfl, Nat.le_of_lt hlt, by simp [Nat.ne_of_lt hlt]⟩

/-- The end marker of a lexer without registered operations, whose rules never send the message that
returns to a snapshot, stands where the engine does. That is at the end of the text if and only if
no rule has put back a lexeme after scanning had ended, since the text was given or in the call that
delivers the marker; so it is if the rules never rewind. -/
theorem end_marker_at_end_iff {rs : Ruleset} {options : Options} {n : Nat} {token : Token}
    (hnew : new rs options = .ok l) (hon : rs.NeverSends "restore_snapshot")
    (h : InUse l text back a) (hnext : nextToken n a = .ok (.endOfStream token) b) :
    token.position = b.engine.currentPosition ∧ token.position.offset ≤ text.length ∧
      (token.position.offset = text.length ↔ (back || callRetreats n a) = false) ∧
      (rs.NeverRewinds → token.position.offset = text.length) := by
  obtain ⟨hops, rfl⟩ : l.operations = [] ∧ l.ruleset = rs := by
    obtain ⟨-, -, -, -, rfl⟩ := new_eq_ok_iff.mp hnew
    exact ⟨rfl, rfl⟩
  obtain ⟨c, hc, heq | ⟨stop, heq⟩⟩ := h.call n
  · obtain ⟨-, -, rfl⟩ := hc.make hops
    rw [heq, onQueue_dequeue] at hnext
    cases hq : c.queue.dequeue with
    | error fault => simp [hq] at hnext
    | ok r =>
      obtain ⟨entry, queue⟩ := r
      simp only [hq, EStateM.Result.ok.injEq] at hnext
      obtain ⟨rfl, rfl⟩ := hnext
      obtain ⟨hposition, hle, hiff⟩ := (hc.placed hops hon (new_placed hnew)).marker hq
      exact ⟨hposition, hle, hiff, fun hn => hiff.mpr (hc.never_retreats hops hn)⟩
  · rw [heq] at hnext
    cases hnext

def retreatingRules : Ruleset :=
  { types := some [(.symbol "A", "a letter")]
    rules := [{ name := "main", kind := .standard
                otherwise := .sequence [.send "next_char" [], .putBack] }] }

def retreatingLexer : Lexer :=
  { engine := .new ({} : Options).engineConfig
    queue := .empty
    ruleset := retreatingRules
    options := {} }

/-- The end of a text of one letter is reported at its start. -/
theorem end_marker_before_letter :
    let l := Program.final (nextToken 4 (retreatingLexer.restarted "a"))
    new retreatingRules {} = .ok retreatingLexer ∧
      retreatingRules.NeverSends "restore_snapshot" ∧ InUse retreatingLexer ['a'] true l ∧
      ∃ token b, nextToken 4 l = .ok (.endOfStream token) b ∧
        token.position = b.engine.currentPosition ∧ token.position.offset < 1 := by
  intro l
  have hnew : new retreatingRules {} = .ok retreatingLexer := rfl
  have hon : retreatingRules.NeverSends "restore_snapshot" := by decide
  have hused : InUse retreatingLexer ['a'] true l := by
    have hset : setInput "a" retreatingLexer = .ok () (retreatingLexer.restarted "a") := rfl
    have hretreats : callRetreats 4 (retreatingLexer.restarted "a") = true := by decide +kernel
    have hcalled := (InUse.start.input hset).called 4
    rwa [hretreats] at hcalled
  have hend : (Program.value? (nextToken 4 l)).any Entry.isEnd = true := by decide +kernel
  obtain ⟨token, hvalue⟩ : ∃ token, Program.value? (nextToken 4 l) = some (.endOfStream token) := by
    cases hentry : Program.value? (nextToken 4 l) with
    | none => simp [hentry] at hend
    | some entry =>
      cases entry with
      | endOfStream token => exact ⟨token, rfl⟩
      | token | error => simp [hentry, Entry.isEnd] at hend
  have hnext := Program.eq_ok_of_value? hvalue
  obtain ⟨hposition, hle, hiff, -⟩ := end_marker_at_end_iff hnew hon hused hnext
  refine ⟨hnew, hon, hused, token, _, hnext, hposition, ?_⟩
  exact Nat.lt_of_le_of_ne hle fun heq => by simpa using hiff.mp heq

end TableLexer.Lexer
