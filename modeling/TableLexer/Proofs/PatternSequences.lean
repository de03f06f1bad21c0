import TableLexer.Proofs.Lexer.Commands
import TableLexer.Proofs.Lexer.Robust

/-!
# Pattern sequences

A pattern sequence completes if every pattern scans as a token in its turn and the action of its
pair is applied. Where a pattern does not scan the sequence ends as an unknown token, which is an
error that is reported, with one exception: after the end of the stream there is no unknown token
left to report. So a sequence that the end of the stream cuts off between two tokens succeeds
without having completed.
-/
namespace TableLexer

namespace Engine

variable {e e' : Engine} {p : Pattern} {o : Option Outcome}

/-- A scan from here finds the end of the stream, and no token is in progress. -/
def RunsOut (e : Engine) : Prop :=
  (∃ e', scanLayout e = .ok (some .endOfStream) e') ∧ e.recognition ≠ .tokenizing

theorem RunsOut.scan (h : e.RunsOut) (p : Pattern) :
    ∃ e', scan p e = .ok (some .endOfStream) e' ∧ e'.recognition = .done := by
  obtain ⟨⟨e', hlay⟩, ht⟩ := h
  refine ⟨e', scan_eq p hlay, ?_⟩
  cases (scanLayout_eq_ok_iff.mp hlay).2 with
  | endOfStream =>
    have ho : e.opened.recognition ≠ .tokenizing := by
      simp only [opened, lineBegun_text, released]
      split
      · simp
      · exact ht
    simp [ended, ho]

theorem runsOut_of_done (h : scan p e = .ok o e') (hdone : e'.recognition = .done) :
    e.RunsOut := by
  obtain ⟨hs, hscanned⟩ := scan_cases h
  have hopened : e.opened.recognition ≠ .done := by
    rcases opened_unclaimed hs with hr | hr <;> simp [hr]
  cases hscanned with
  | layout hlaid =>
    cases hlaid with
    | indentation => simp [indented] at hdone
    | lineEnd => exact absurd (by simpa using hdone) hopened
    | endOfStream hi he =>
      refine ⟨⟨_, scanLayout_eq_ok_iff.mpr ⟨hs, .endOfStream hi he⟩⟩, ?_⟩
      intro ht
      have hopen : e.opened.recognition = .tokenizing := by simp [opened, released, ht]
      simp [ended, hopen] at hdone
  | miss hlaid =>
    cases hlaid
    exact absurd (by simpa using hdone) hopened
  | token => simp [tokenTaken] at hdone

theorem scan_over (h : scan p e = .ok (some .endOfStream) e') :
    e'.recognition = .done ∨ e'.recognition = .aborted := by
  cases (scan_cases h).2 with
  | layout hlaid =>
    cases hlaid
    by_cases ht : e.opened.skipNoise.recognition = .tokenizing
    · exact .inr (if_pos ht)
    · exact .inl (if_neg ht)

/-- Unless a scan found a token or the end of the stream, it left a lexeme or text behind. -/
theorem scan_text_ahead (h : scan p e = .ok o e') (htoken : o ≠ some .token)
    (hend : o ≠ some .endOfStream) (hlexeme : e'.lexeme = []) : e'.input[e'.pos]? ≠ none := by
  rw [ne_eq, List.getElem?_eq_none_iff, Nat.not_le]
  cases (scan_cases h).2 with
  | layout hlaid =>
    cases hlaid with
    | @indentation n hi =>
      obtain ⟨-, hn, hin⟩ := indentation?_eq_some hi
      have htaken : (e.opened.indented n).lexeme = e.opened.lexeme ++ e.opened.upcoming n := rfl
      rw [htaken, List.append_eq_nil_iff, upcoming, Text.slice_add, List.take_eq_nil_iff,
        List.drop_eq_nil_iff] at hlexeme
      omega
    | endOfStream => exact absurd rfl hend
    | lineEnd hi he hs =>
      obtain ⟨hn, hin⟩ := Pattern.consumedAt?_within hs
      simp only [skipNoise_text, lineEnded_text] at hin ⊢
      omega
  | miss hlaid =>
    cases hlaid with
    | body hi he hs => simpa [atEnd] using he
  | token => exact absurd rfl htoken

theorem Robust.after (h : e.Robust) (cs : List Command) : (e.after cs).Robust := by
  induction cs generalizing e with
  | nil => exact h
  | cons c cs ih => exact ih (h.next c)

theorem new_robust {config : EngineConfig} (h : config.Apart) : (new config).Robust :=
  ⟨h, new_holds config (Mark.origin_backed config)⟩

/-- The error is lexical, unless noise and separators are not kept apart and the line machine
refuses a character at a line end. -/
def Reports (e : Engine) (fault : LexError) : Prop :=
  fault.kind = .lexical ∨
    fault.cause = .lineEventRefused .expectedCharChecked .atLineEnd ∧ ¬ e.Robust

theorem Reports.lexical {fault : LexError} (h : e.Reports fault) (hrobust : e.Robust) :
    fault.kind = .lexical := h.resolve_right fun hr => hr.2 hrobust

theorem reports_of_blamed {fault : LexError}
    (hb : fault.kind = .lexical ∨ fault.cause = .lineEventRefused .expectedCharChecked .atLineEnd)
    (hrobust : e.Robust → fault.kind = .lexical) : e.Reports fault := by
  by_cases hr : e.Robust
  · exact .inl (hrobust hr)
  · exact hb.imp_right fun hc => ⟨hc, hr⟩

end Engine

namespace Lexer

/-- From `l` on every pattern scans as a token in its turn, and the action of its pair is applied
before the next pattern is tried. -/
inductive Completes (call : Call → LexerM Reply) :
    Reply → List (Pattern × Action) → Lexer → Reply → Lexer → Prop where
  | nil (last l) : Completes call last [] l last l
  | cons {last p a rest l l₁ reply l₂ final l'} (hscan : scanToken p l = .ok true l₁)
      (hrun : a.run call l₁ = .ok reply l₂) (hrest : Completes call reply rest l₂ final l') :
      Completes call last ((p, a) :: rest) l final l'

variable {l l' l₁ l₂ : Lexer} {p : Pattern} {call : Call → LexerM Reply}
  {pairs : List (Pattern × Action)} {last reply : Reply}

theorem LeadsOn.robust (h : LeadsOn l l') (hl : l.engine.Robust) : l'.engine.Robust := by
  obtain ⟨cs, -, he⟩ := h
  rw [he]
  exact hl.after cs

theorem LeadsOn.reports {fault : LexError} (h : LeadsOn l l') (hr : l'.engine.Reports fault) :
    l.engine.Reports fault := hr.imp_right fun hc => ⟨hc.1, fun hl => hc.2 (h.robust hl)⟩

theorem scanToken_runsOut (h : l.engine.RunsOut) (p : Pattern) :
    ∃ l', scanToken p l = .ok false l' ∧ l'.engine.recognition = .done := by
  obtain ⟨e', hscan, hdone⟩ := h.scan p
  exact ⟨{ l with engine := e' }, by simp [scanToken_eq, hscan], hdone⟩

/-- What is found in place of a token is reported, unless it is the end of the stream between two
tokens. -/
theorem unknownToken_reports (hscan : scanToken p l = .ok false l₁) (hgoes : ¬ l.engine.RunsOut) :
    ∃ fault l₂, unknownToken l₁ = .error (.fault fault) l₂ ∧ l₁.engine.Reports fault := by
  rw [scanToken_eq] at hscan
  cases hs : Engine.scan p l.engine with
  | error fault e => simp [hs] at hscan
  | ok o e =>
    simp only [hs, EStateM.Result.ok.injEq, decide_eq_false_iff_not] at hscan
    obtain ⟨htoken, rfl⟩ := hscan
    have hdone : e.recognition ≠ .done := fun hd => hgoes (Engine.runsOut_of_done hs hd)
    rw [unknownToken_eq]
    dsimp only
    split
    · next hd => exact absurd hd hdone
    · exact ⟨_, _, rfl, .inl rfl⟩
    · next haborted =>
      split
      · next hlexeme =>
        split
        · next hread =>
          -- nothing can be read at the end of the stream only, where the recognition is over
          have hnone : e.input[e.pos]? = none := by
            cases (Engine.nextChar_cases hread).2 with
            | endOfStream hn => exact hn
          have hend : o ≠ some .endOfStream := by
            rintro rfl
            exact (Engine.scan_over hs).elim hdone haborted
          exact absurd hnone
            (Engine.scan_text_ahead hs htoken hend (List.isEmpty_iff.mp hlexeme))
        · exact ⟨_, _, rfl, .inl rfl⟩
        · next hread =>
          exact ⟨_, _, rfl, Engine.reports_of_blamed (Engine.nextChar_blames hread)
            fun hrobust => hrobust.nextChar_lexical hread⟩
      · exact ⟨_, _, rfl, .inl rfl⟩

theorem runPairs_scanned {rest : List (Pattern × Action)} {a : Action}
    (hscan : scanToken p l = .ok true l₁) (hrun : a.run call l₁ = .ok reply l₂) :
    Action.runPairs call last ((p, a) :: rest) l = Action.runPairs call reply rest l₂ := by
  rw [Action.runPairs, Program.bind_apply, hscan]
  simp only [↓reduceIte, Program.bind_apply, hrun]

theorem runPairs_unscanned {rest : List (Pattern × Action)} {a : Action}
    (hscan : scanToken p l = .ok false l₁) :
    Action.runPairs call last ((p, a) :: rest) l = unknownToken l₁ := by
  rw [Action.runPairs, Program.bind_apply, hscan]
  rfl

/-- At the end of the stream, between two tokens, a sequence succeeds as it is. -/
theorem runPairs_runsOut {rest : List (Pattern × Action)} {a : Action} (hout : l.engine.RunsOut)
    (hscan : scanToken p l = .ok false l₁) :
    Action.runPairs call last ((p, a) :: rest) l = .ok none l₁ := by
  obtain ⟨l₂, hscan₂, hdone⟩ := scanToken_runsOut hout p
  rw [hscan] at hscan₂
  cases hscan₂
  rw [runPairs_unscanned hscan, unknownToken_eq, hdone]

def ComesTo (call : Call → LexerM Reply) (pairs : List (Pattern × Action)) (l : Lexer)
    (p : Pattern) (l₁ : Lexer) : Prop :=
  ∃ before a rest last, pairs = before ++ (p, a) :: rest ∧ Completes call none before l last l₁

theorem Completes.run {before rest : List (Pattern × Action)}
    (h : Completes call last before l reply l₁) :
    Action.runPairs call last (before ++ rest) l = Action.runPairs call reply rest l₁ := by
  induction h with
  | nil => rfl
  | cons hscan hrun _ ih => rw [List.cons_append, runPairs_scanned hscan hrun, ih]

theorem Completes.leads {n : Nat} (h : Completes (respond n) last pairs l reply l')
    (hops : l.operations = []) : LeadsOn l l' := by
  induction h with
  | nil => exact .same rfl
  | @cons last p a rest l l₁ reply l₂ final l' hscan hrun _ ih =>
    have hlead := scanToken_leads (C := fun _ => True) (p := p) trivial l
    have hframe := scanToken_frame p l
    rw [hscan] at hlead hframe
    have hops₁ := hframe.operations.trans hops
    have hperform := Action.run_eq_perform (respond_answers n) a l₁ hops₁
    have hlead₁ := perform_leads (a.steps (respondSteps n) l₁) l₁
    have hframe₁ := perform_frame (a.steps (respondSteps n) l₁) l₁
    rw [← hperform, hrun] at hlead₁ hframe₁
    exact (hlead.trans hlead₁).trans (ih (hframe₁.operations.trans hops₁))

/-- By induction on the pairs, from any reply so far. -/
theorem runPairs_ok_cases (h : Action.runPairs call last pairs l = .ok reply l') :
    Completes call last pairs l reply l' ∨
      ∃ before p a rest last' l₁, pairs = before ++ (p, a) :: rest ∧
        Completes call last before l last' l₁ ∧ l₁.engine.RunsOut ∧
        scanToken p l₁ = .ok false l' ∧ reply = none := by
  induction pairs generalizing last l with
  | nil =>
    cases h
    exact .inl (.nil _ _)
  | cons pair rest ih =>
    obtain ⟨p, a⟩ := pair
    cases hscan : scanToken p l with
    | error stop l₁ => simp [Action.runPairs, hscan] at h
    | ok found l₁ =>
      cases found with
      | false =>
        by_cases hout : l.engine.RunsOut
        · rw [runPairs_runsOut hout hscan] at h
          cases h
          exact .inr ⟨[], p, a, rest, last, l, rfl, .nil _ _, hout, hscan, rfl⟩
        · obtain ⟨fault, l₂, hfault, -⟩ := unknownToken_reports hscan hout
          rw [runPairs_unscanned hscan, hfault] at h
          cases h
      | true =>
        cases hrun : a.run call l₁ with
        | error stop l₂ => simp [Action.runPairs, hscan, hrun] at h
        | ok reply₁ l₂ =>
          rw [runPairs_scanned hscan hrun] at h
          rcases ih h with hall | ⟨before, p', a', rest', last', l₃, rfl, hbefore, hstop⟩
          · exact .inl (.cons hscan hrun hall)
          · exact .inr ⟨(p, a) :: before, p', a', rest', last', l₃, rfl,
              .cons hscan hrun hbefore, hstop⟩

/-- An application succeeds in two ways. -/
theorem runPairs_eq_ok_iff : Action.runPairs call last pairs l = .ok reply l' ↔
    Completes call last pairs l reply l' ∨
      ∃ before p a rest last' l₁, pairs = before ++ (p, a) :: rest ∧
        Completes call last before l last' l₁ ∧ l₁.engine.RunsOut ∧
        scanToken p l₁ = .ok false l' ∧ reply = none := by
  refine ⟨runPairs_ok_cases, ?_⟩
  rintro (h | ⟨before, p, a, rest, last', l₁, rfl, hbefore, hout, hscan, rfl⟩)
  · calc
      Action.runPairs call last pairs l
        = Action.runPairs call last (pairs ++ []) l := by rw [List.append_nil]
      _ = .ok reply l' := h.run
  · rw [hbefore.run, runPairs_runsOut hout hscan]

/-- A sequence that comes to a pattern which does not scan ends in an error, unless the stream is
out between two tokens. -/
theorem ComesTo.reports (h : ComesTo call pairs l p l₁)
    (hstop : ∀ l₂, scanToken p l₁ ≠ .ok true l₂) (hgoes : ¬ l₁.engine.RunsOut) :
    ∃ fault l₂, Action.runPairs call none pairs l = .error (.fault fault) l₂ ∧
      l₁.engine.Reports fault := by
  obtain ⟨before, a, rest, last, rfl, hbefore⟩ := h
  rw [hbefore.run]
  cases hscan : scanToken p l₁ with
  | error stop l₂ =>
    rw [Action.runPairs, Program.bind_apply, hscan]
    rw [scanToken_eq] at hscan
    cases hs : Engine.scan p l₁.engine with
    | ok o e => simp [hs] at hscan
    | error fault e =>
      simp only [hs, EStateM.Result.error.injEq] at hscan
      obtain ⟨rfl, rfl⟩ := hscan
      exact ⟨fault, _, rfl, Engine.reports_of_blamed (Engine.scan_blames hs)
        fun hrobust => hrobust.scan_lexical hs⟩
  | ok found l₂ =>
    cases found with
    | true => exact absurd hscan (hstop l₂)
    | false =>
      obtain ⟨fault, l₃, hfault, hkind⟩ := unknownToken_reports hscan hgoes
      have hlead := scanToken_leads (C := fun _ => True) (p := p) trivial l₁
      rw [hscan] at hlead
      exact ⟨fault, l₃, (runPairs_unscanned hscan).trans hfault, LeadsOn.reports hlead hkind⟩

/-- What encloses a program that raises a lexical error does not go on, and the driver queues the
error. -/
theorem capturing_bind {α β : Type} {m : LexerM α} {fault : LexError}
    (h : m l = .error (.fault fault) l') (hk : fault.kind = .lexical) (next : α → LexerM β) :
    capturing (m >>= next) l = .ok true (l'.errorQueued fault) := by
  simp [capturing_eq, h, hk]

/-- A pattern sequence completes or is reported, unless the stream ends in it between two tokens.
Applied to any lexer, it succeeds if and only if every pattern scanned and every action was applied
in order, or if the end of the stream was found where a pattern should have scanned and no token was
in progress; then nothing is reported, and what encloses the sequence goes on. A pattern that does
not scan for any other reason makes the sequence fail. The error is lexical, wherever commands have
led an engine that keeps noise and separators apart, so that nothing that encloses the sequence goes
on and the driver queues the error. -/
theorem pattern_sequence_outcomes (n : Nat) (pairs : List (Pattern × Action)) (l : Lexer) :
    (∀ reply l', (Action.patterns pairs).run (respond n) l = .ok reply l' ↔
      Completes (respond n) none pairs l reply l' ∨
        ∃ p l₁, ComesTo (respond n) pairs l p l₁ ∧ l₁.engine.RunsOut ∧
          scanToken p l₁ = .ok false l' ∧ reply = none) ∧
    ∀ p l₁, ComesTo (respond n) pairs l p l₁ → (∀ l₂, scanToken p l₁ ≠ .ok true l₂) →
      ¬ l₁.engine.RunsOut →
        ∃ fault l₂, (Action.patterns pairs).run (respond n) l = .error (.fault fault) l₂ ∧
          l₁.engine.Reports fault ∧
          ∀ config commands, config.Apart → l.engine = (Engine.new config).after commands →
            l.operations = [] → fault.kind = .lexical ∧
              ∀ next : Reply → LexerM Reply,
                capturing ((Action.patterns pairs).run (respond n) >>= next) l =
                  .ok true (l₂.errorQueued fault) := by
  constructor
  · intro reply l'
    rw [Action.run, runPairs_eq_ok_iff]
    refine or_congr_right ?_
    constructor
    · rintro ⟨before, p, a, rest, last, l₁, heq, hbefore, hout⟩
      exact ⟨p, l₁, ⟨before, a, rest, last, heq, hbefore⟩, hout⟩
    · rintro ⟨p, l₁, ⟨before, a, rest, last, heq, hbefore⟩, hout⟩
      exact ⟨before, p, a, rest, last, l₁, heq, hbefore, hout⟩
  · intro p l₁ hcomes hstop hgoes
    obtain ⟨fault, l₂, hfault, hreports⟩ := hcomes.reports hstop hgoes
    rw [Action.run]
    refine ⟨fault, l₂, hfault, hreports, ?_⟩
    intro config commands hapart hengine hops
    have hrobust : l.engine.Robust := hengine ▸ (Engine.new_robust hapart).after commands
    obtain ⟨before, a, rest, last, -, hbefore⟩ := hcomes
    have hkind := hreports.lexical ((hbefore.leads hops).robust hrobust)
    exact ⟨hkind, capturing_bind hfault hkind⟩

def letterPair : List (Pattern × Action) :=
  [(.char 'a', .enqueue (.symbol "A")), (.char 'b', .enqueue (.symbol "B"))]

def letterPairRules : Ruleset :=
  { types := some [(.symbol "A", "the first letter"), (.symbol "B", "the second letter"),
      (.symbol "C", "the first letter, once the pair was read")]
    rules := [{ name := "main", kind := .lookahead
                otherwise := .sequence [.patterns letterPair,
                  .retype (.symbol "A") (.symbol "C")] }] }

def letterPairLexer : Lexer :=
  { engine := .new ({} : Options).engineConfig
    queue := ⟨[], [], []⟩
    ruleset := letterPairRules
    options := {} }

def behindLetter (text : String) : Lexer :=
  Program.final (enqueueToken (.symbol "A")
    (Program.final (scanToken (.char 'a') (letterPairLexer.restarted text))))

theorem comesTo_behindLetter (text : String)
    (hscan : Program.value? (scanToken (.char 'a') (letterPairLexer.restarted text)) = some true)
    (hrun : (Program.value? (enqueueToken (.symbol "A")
      (Program.final (scanToken (.char 'a') (letterPairLexer.restarted text))))).isSome) :
    ComesTo (respond 9) letterPair (letterPairLexer.restarted text) (.char 'b')
      (behindLetter text) := by
  obtain ⟨reply, hreply⟩ := Option.isSome_iff_exists.mp hrun
  exact ⟨[(.char 'a', .enqueue (.symbol "A"))], .enqueue (.symbol "B"), [], reply, rfl,
    .cons (Program.eq_ok_of_value? hscan) (Program.eq_ok_of_value? hreply) (.nil _ _)⟩

/-- Cut off by the end of the stream, the sequence succeeds without its second letter, the action
behind it is applied and no error is delivered; with another letter in its place there is an
error. -/
theorem letter_pair_cut_off :
    new letterPairRules {} = .ok letterPairLexer ∧
      (∃ l', (Action.patterns letterPair).run (respond 9) (letterPairLexer.restarted "a") =
          .ok none l' ∧
        Program.value? (scanToken (.char 'b') (behindLetter "a")) = some false) ∧
      (answers 9 2 (letterPairLexer.restarted "a")).map (fun a => a.toOption.map Entry.type?) =
        [some (some (.symbol "C")), some none] ∧
      ∃ fault l', (Action.patterns letterPair).run (respond 9) (letterPairLexer.restarted "ac") =
        .error (.fault fault) l' ∧ fault.kind = .lexical := by
  refine ⟨rfl, ?_, by decide +kernel, ?_⟩
  · have hmissed : Program.value? (scanToken (.char 'b') (behindLetter "a")) = some false := by
      decide +kernel
    have hlayout : Program.value? (Engine.scanLayout (behindLetter "a").engine) =
        some (some .endOfStream) := by
      decide +kernel
    have hout : (behindLetter "a").engine.RunsOut :=
      ⟨⟨_, Program.eq_ok_of_value? hlayout⟩, by decide +kernel⟩
    have hcomes := comesTo_behindLetter "a" (by decide +kernel) (by decide +kernel)
    have hscan := Program.eq_ok_of_value? hmissed
    exact ⟨_, ((pattern_sequence_outcomes 9 letterPair _).1 none _).mpr
      (.inr ⟨_, _, hcomes, hout, hscan, rfl⟩), hmissed⟩
  · have hmissed : Program.value? (scanToken (.char 'b') (behindLetter "ac")) = some false := by
      decide +kernel
    have hlayout : Program.value? (Engine.scanLayout (behindLetter "ac").engine) = some none := by
      decide +kernel
    have hcomes := comesTo_behindLetter "ac" (by decide +kernel) (by decide +kernel)
    obtain ⟨fault, l', hfault, -, hkind⟩ := (pattern_sequence_outcomes 9 letterPair _).2 _ _ hcomes
      (fun l₂ h => by simp [h, Program.value?] at hmissed)
      (fun ⟨⟨e, he⟩, _⟩ => by simp [he, Program.value?] at hlayout)
    have hapart : ({} : Options).engineConfig.Apart := EngineConfig.default_apart
    have hengine : (letterPairLexer.restarted "ac").engine =
        (Engine.new ({} : Options).engineConfig).after [.setInput "ac".toList] := by
      simp [Engine.after, Engine.next, Engine.setInput_eq, Engine.new, Engine.restarted,
        Scan.initial, Lexer.restarted, letterPairLexer]
    exact ⟨fault, l', hfault, (hkind _ _ hapart hengine rfl).1⟩

end Lexer
end TableLexer
