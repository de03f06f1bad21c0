import TableLexer.Proofs.FreshInput
import TableLexer.Proofs.Lexer.Robust
import TableLexer.Proofs.Lexer.Runs

/-!
# Malformed input is reported

A rule set that does no harm by itself never makes a lexer fail. Whatever the text is like, the
calls for the next entry deliver entries up to the end of the stream, and every lexical error that
a rule raised is among them.
-/
namespace TableLexer.Lexer

variable {n : Nat} {l a b : Lexer} {steps : List Lexer} {entries : List Entry}

theorem errorQueued_robust (h : l.Robust) (e : LexError) : (l.errorQueued e).Robust :=
  (h.withQueue (q := { l.queue with back := .error e :: l.queue.back }) rfl).withStats _

theorem endQueued_robust (h : l.Robust) : l.endQueued.Robust := h.withQueue rfl

theorem complained_robust (h : l.Robust) (e : LexError) (captured : Bool) :
    (l.complained e captured).Robust := by
  cases captured with
  | true => exact h
  | false => exact errorQueued_robust h e

theorem skipChar_withstood (h : l.Robust) : Withstood (skipChar l) := by
  refine withstood_bind (nextChar_withstood h) fun _ l' h' => ?_
  simp only [onEngine, Engine.resetRecognition_eq]
  exact h'.withEngine h'.engine.rested

theorem settle_withstood (h : l.Robust) (hw : l.engine.recognition ≠ .waitingForInput)
    (rule : String) (start : Mark) (captured : Bool) :
    Withstood (settle rule start captured l) := by
  have stay : ∀ e, Withstood (if stalled start l.engine.toMark then
      skipChar (l.complained e captured) else .ok () l) := by
    intro e
    split
    · exact skipChar_withstood (complained_robust h e captured)
    · exact h
  rw [settle_eq]
  cases hr : l.engine.recognition with
  | waitingForInput => exact absurd hr hw
  | tokenizing | failed => exact h.withEngine h.engine.rested
  | done => exact endQueued_robust h
  | aborted => exact endQueued_robust (complained_robust h _ captured)
  | ready | recognized => exact stay _

theorem capturing_withstood {α : Type} {m : LexerM α} (h : Withstood (m l)) :
    Withstood (capturing m l) := by
  rw [capturing_eq]
  cases hr : m l with
  | ok a l' =>
    rw [hr] at h
    exact h
  | error stop l' =>
    rw [hr] at h
    cases stop with
    | exhausted => trivial
    | fault e =>
      simp only [h.1, ↓reduceIte]
      exact errorQueued_robust h.2 e

theorem Robust.never_restores (h : l.Robust) : l.ruleset.NeverSends "restore_snapshot" :=
  h.rules.sends.never (by decide)

theorem Robust.counted (h : l.Robust) : l.counted.Robust := h.withStats _

theorem Robust.main_applies (h : l.Robust) :
    ∃ r, l.options.ruleFor? l.modes.current = some l.options.mainRule ∧
      l.ruleset.rule? l.options.mainRule = some r := by
  obtain ⟨r, hr⟩ := h.main
  exact ⟨r, by rw [h.modes]; rfl, hr⟩

theorem applyModeRule_withstood (h : l.Robust) (hl : l.Applying l.engine.pos) (n : Nat) :
    Withstood (applyModeRule n l) := by
  obtain ⟨r, hname, hr⟩ := h.main_applies
  have hmem := Ruleset.mem_of_rule? hr
  have hcap := capturing_withstood (ruleRun_withstood h.counted hmem n)
  have hrun : Kept (Applying l.engine.pos) (r.run (respond n) l.counted) :=
    Rule.run_applying (l := l.counted) h.never_restores hmem h.operations ⟨hl.engine, hl.queue⟩ n
  simp only [applyModeRule_eq, hname, hr]
  cases hc : capturing (r.run (respond n)) l.counted with
  | error stop l' =>
    rw [hc] at hcap
    cases stop <;> exact hcap
  | ok captured l' =>
    rw [hc] at hcap
    exact settle_withstood hcap (capturing_applying hrun hc).engine.input_given _ _ captured

theorem enqueueIndent_withstood (h : l.Robust) : Withstood (enqueueIndent l) := by
  have htoken : Withstood (enqueueToken l.options.indentType l) :=
    enqueueToken_withstood h.indentType h
  refine withstood_bind (m := enqueueToken l.options.indentType) htoken fun reply l' h' => ?_
  cases reply with
  | none => exact h'
  | some entry => exact h'.withStats _

theorem enqueueLineEnd_withstood (h : l.Robust) : Withstood (enqueueLineEnd l) := by
  rw [enqueueLineEnd_eq]
  split
  · obtain ⟨reply, q, hq⟩ := Queue.pushAhead_succeeds h.transforms h.eolType
      (.ofLexeme l.engine.lexemeText l.engine.lexemePosition)
    simp only [lineEndToken, hq]
    exact (h.withQueue (Queue.pushAhead_transforms hq)).withStats _
  · exact h

theorem fillStep_withstood (h : l.Robust) (hl : l.Open) (n : Nat) : Withstood (fillStep n l) := by
  have hscan : l.engine.Scannable := hl.between.imp_right .inr
  obtain ⟨o, e, hlay⟩ := Engine.scanLayout_total hscan
  have hlaid := (Engine.scanLayout_eq_ok_iff.mp hlay).2
  have he : ({ l with engine := e } : Lexer).Robust := by
    have hnext := h.engine.next .scanLayout
    simp only [Engine.next, hlay, Program.final_ok] at hnext
    exact h.withEngine hnext
  rw [fillStep_eq n hlay]
  cases hlaid with
  | indentation => exact enqueueIndent_withstood he
  | endOfStream => exact endQueued_robust he
  | lineEnd => exact enqueueLineEnd_withstood he
  | body hi hb hs => exact applyModeRule_withstood he (hl.body_applying (.body hi hb hs)) n

/-- A step that comes back gets closer to the end of the stream. -/
theorem fillStep_succeeds (h : l.Robust) (hl : l.Open) (n : Nat) :
    (∃ l', fillStep n l = .ok () l' ∧ l'.Robust ∧ (l'.Open ∨ l'.Closed)) ∨
      ∃ l', fillStep n l = .error .exhausted l' := by
  have hw := fillStep_withstood h hl n
  have hg := fillStep_gets_on hl n
  cases hr : fillStep n l with
  | ok _ l' =>
    rw [hr] at hw hg
    exact .inl ⟨l', rfl, hw, hg.imp_left And.left⟩
  | error stop l' =>
    rw [hr] at hw hg
    cases stop with
    | fault e => exact absurd hw.1 hg
    | exhausted => exact .inr ⟨l', rfl⟩

theorem settle_keeps {rule : String} {start : Mark} {captured : Bool} {entry : Entry}
    (h : entry ∈ l.queue.toList) (hset : settle rule start captured l = .ok () b) :
    entry ∈ b.queue.toList := by
  have complained : ∀ e, entry ∈ (l.complained e captured).queue.toList := by
    intro e
    cases captured with
    | true => exact h
    | false =>
      rw [show l.complained e false = l.errorQueued e from rfl, errorQueued_toList]
      exact List.mem_append_left _ h
  have ended : ∀ c : Lexer, entry ∈ c.queue.toList → entry ∈ c.endQueued.queue.toList := by
    intro c hc
    rw [endQueued_toList]
    exact List.mem_append_left _ hc
  have stayed : ∀ e, (if stalled start l.engine.toMark then skipChar (l.complained e captured)
      else .ok () l) = .ok () b → entry ∈ b.queue.toList := by
    intro e hs
    split at hs
    · rw [skipChar_eq] at hs
      split at hs <;> cases hs
      exact complained e
    · cases hs
      exact h
  rw [settle_eq] at hset
  cases hr : l.engine.recognition with
  | waitingForInput => simp [hr] at hset
  | tokenizing | failed =>
    simp only [hr] at hset
    cases hset
    exact h
  | done =>
    simp only [hr] at hset
    cases hset
    exact ended l h
  | aborted =>
    simp only [hr] at hset
    cases hset
    exact ended _ (complained _)
  | ready | recognized =>
    simp only [hr] at hset
    exact stayed _ hset

/-- The error that a rule raised is in the queue after the step. -/
theorem fillStep_captures (hstep : fillStep n l = .ok () b) {e : LexError}
    (he : raised? n l = some e) : .error e ∈ b.queue.toList := by
  unfold raised? at he
  split at he
  · next hrun =>
    cases he
    obtain ⟨e', rule, hlay, hr, hrule⟩ := ruleRun?_eq_some hrun
    obtain ⟨name, heq⟩ := fillStep_rule (n := n) hlay hr
    rw [hstep, hrule] at heq
    by_cases hk : e.kind = .lexical
    · simp only [hk, ↓reduceIte] at heq
      exact settle_keeps (by simp [errorQueued_toList]) heq.symm
    · simp [hk] at heq
  · cases he

/-- How far a run is that has delivered the entries: on the way to the end, with the end marker
queued, or with the end marker delivered. -/
inductive Stage (entries : List Entry) (l : Lexer) : Prop where
  | before (h : l.Open) (hplain : ∀ e ∈ entries, e.Plain)
  | ending (h : l.Closed) (hplain : ∀ e ∈ entries, e.Plain)
  | after (hr : l.engine.recognition = .done ∨ l.engine.recognition = .aborted)
      (hq : l.queue.toList = []) (hend : ∃ e ∈ entries, e.isEnd = true)

/-- What holds in a run: nothing fails but for the text, and the errors that rules raised have
become entries, in order. -/
structure Reported (n : Nat) (steps : List Lexer) (entries : List Entry) (l : Lexer) : Prop where
  robust : l.Robust
  stage : Stage entries l
  errors : ((steps.filterMap (raised? n)).map Entry.error).Sublist (entries ++ l.queue.toList)

theorem Reported.fill (h : Reported n steps entries a) (hq : a.queue.toList = [])
    (hstep : fillStep n a = .ok () b) : Reported n (steps ++ [a]) entries b := by
  have hnext : b.Robust ∧ Stage entries b := by
    cases h.stage with
    | before ho hplain =>
      rcases fillStep_succeeds h.robust ho n with ⟨b', hb, hrobust, hstage⟩ | ⟨b', hb⟩
      · cases hb.symm.trans hstep
        exact ⟨hrobust, hstage.elim (.before · hplain) (.ending · hplain)⟩
      · cases hb.symm.trans hstep
    | ending hc => exact absurd hq hc.queue_ne_nil
    | after hr =>
      have hs := fillStep_scannable hstep
      rcases hr with hr | hr <;> simp [Engine.Scannable, hr] at hs
  refine ⟨hnext.1, hnext.2, ?_⟩
  have herrors := h.errors
  rw [hq, List.append_nil] at herrors
  rw [List.filterMap_append, List.map_append]
  refine herrors.append ?_
  cases hr : raised? n a with
  | none => simp [hr]
  | some e => simpa [hr] using fillStep_captures hstep hr

theorem Reported.deliver (h : Reported n steps entries a) {entry : Entry} {queue : Queue}
    (hq : a.queue.dequeue = .ok (entry, queue)) :
    Reported n steps (entries ++ [entry]) { a with queue } := by
  obtain ⟨hlist, htransforms⟩ := Queue.dequeue_eq_ok hq
  have hplain : (∀ e ∈ entries, e.Plain) → entry.Plain →
      ∀ e ∈ entries ++ [entry], e.Plain := by
    intro hentries hentry
    rw [List.forall_mem_append, List.forall_mem_singleton]
    exact ⟨hentries, hentry⟩
  refine ⟨h.robust.withQueue htransforms, ?_, ?_⟩
  · cases h.stage with
    | before ho hentries =>
      obtain ⟨hentry, hqueue⟩ := ho.queue.dequeue hq
      exact .before ⟨ho.operations, ho.onward, ho.between, ho.idle, hqueue⟩
        (hplain hentries hentry)
    | ending hc hentries =>
      obtain ⟨rest, token, hrest, hrestPlain⟩ := hc.queue
      rw [hlist] at hrest
      cases rest with
      | nil =>
        simp only [List.nil_append, List.cons.injEq] at hrest
        exact .after hc.ended hrest.2 ⟨entry, by simp, by rw [hrest.1]; rfl⟩
      | cons first rest =>
        simp only [List.cons_append, List.cons.injEq] at hrest
        rw [List.forall_mem_cons] at hrestPlain
        exact .ending ⟨hc.ended, rest, token, hrest.2, hrestPlain.2⟩
          (hplain hentries (hrest.1 ▸ hrestPlain.1))
    | after hr hnil => simp [hlist] at hnil
  · simpa [hlist] using h.errors

theorem Runs.reported (h : Runs n l steps entries a) (hl : l.Robust) (ho : l.Open) :
    Reported n steps entries a := by
  induction h with
  | start => exact ⟨hl, .before ho (by simp), by simp⟩
  | fill _ hq hstep ih => exact ih.fill hq hstep
  | deliver _ hq ih => exact ih.deliver hq

/-- Before the end has been delivered, a call fails only if it does not come back. -/
theorem Reported.call_returns (h : Reported n steps entries l)
    (hnoend : ∀ e ∈ entries, e.isEnd = false) {stop : Stop}
    (hcall : nextToken n l = .error stop b) : stop = .exhausted := by
  cases stop with
  | exhausted => rfl
  | fault fault =>
    cases h.stage with
    | before ho hplain =>
      rcases nextToken_breaks hcall with ⟨hready, hrec, -⟩ | ⟨steps', c, hrun, hq, hstep⟩
      · exact (ho.between.elim hready hrec).elim
      · have hc := hrun.reported h.robust ho
        cases hc.stage with
        | before hopen =>
          rcases fillStep_succeeds hc.robust hopen n with ⟨c', hc', -⟩ | ⟨c', hc'⟩
          · cases hc'.symm.trans hstep
          · cases hc'.symm.trans hstep
        | ending hclosed => exact absurd hq hclosed.queue_ne_nil
        | after _ _ hend => simp at hend
    | ending hc =>
      obtain ⟨entry, rest, hq⟩ := List.exists_cons_of_ne_nil hc.queue_ne_nil
      obtain ⟨q, -, -, hnext⟩ := nextToken_queued (l := l) (by
        rcases hc.ended with hr | hr <;> simp [hr]) hq
      cases (hnext n).symm.trans hcall
    | after _ _ hend =>
      obtain ⟨e, he, hend⟩ := hend
      simp [hnoend e he] at hend

theorem restarted_robust {calls : List Ruleset.Definition} {options : Options} {l₀ : Lexer}
    (hnew : new (Ruleset.build calls) options = .ok l₀)
    (hsends : (Ruleset.build calls).SendsOnly Ruleset.harmlessMessages)
    (hnamed : ∀ type, (Ruleset.build calls).hasType type = true → type.isBlankSymbol = false)
    (heol : options.eolType.isBlankSymbol = false)
    (hindent : options.indentType.isBlankSymbol = false)
    (htransforms : ∀ t ∈ options.transforms, t.Names) (hapart : options.engineConfig.Apart)
    (history : List Request) (text : String) : ((l₀.driven history).restarted text).Robust := by
  obtain ⟨hvalid, hmain, -, -, rfl⟩ := new_eq_ok_iff.mp hnew
  have hmake := driven_make (l := { engine := .new options.engineConfig
                                    queue := ⟨[], [], options.transforms⟩
                                    ruleset := Ruleset.build calls, options }) rfl history
  have hbase := hmake.base (hsends.never (by decide))
  generalize Lexer.driven _ history = l at hmake hbase
  obtain ⟨hconfig, hrules, hoptions, hoperations, hq, -⟩ := hmake
  constructor
  · exact hoperations
  · exact hrules ▸ ⟨(Ruleset.build_typed calls).vetted hvalid, hsends, hnamed⟩
  · simp only [restarted, hbase]
  · obtain ⟨r, hr⟩ := Option.isSome_iff_exists.mp hmain
    exact ⟨r, by simpa [restarted, hrules, hoptions] using hr⟩
  · exact hoptions ▸ heol
  · exact hoptions ▸ hindent
  · exact hq ▸ htransforms
  · constructor
    · exact hconfig ▸ hapart
    · exact ⟨Mark.origin_backed _ _, Mark.origin_backed _ _, by simp [restarted]⟩

/-- Malformed input never makes a sound rule set fail. Let a lexer be accepted for a rule set
that sends harmless messages only, with types that have names, transforms that make no token
without one, and noise that starts apart from separators. Whatever requests it has served, let it
be given a text and let calls deliver entries. As long as the end is not among them the next call
delivers an entry too, if it comes back. And every error that a rule has raised since is one of
the entries delivered or, before the end, of those that will be delivered next. -/
theorem malformed_input_reported {calls : List Ruleset.Definition} {options : Options}
    {l₀ l : Lexer} (hnew : new (Ruleset.build calls) options = .ok l₀)
    (hsends : (Ruleset.build calls).SendsOnly Ruleset.harmlessMessages)
    (hnamed : ∀ type, (Ruleset.build calls).hasType type = true → type.isBlankSymbol = false)
    (heol : options.eolType.isBlankSymbol = false)
    (hindent : options.indentType.isBlankSymbol = false)
    (htransforms : ∀ t ∈ options.transforms, t.Names) (hapart : options.engineConfig.Apart)
    {history : List Request} {text : String}
    (hset : setInput text (l₀.driven history) = .ok () l) {n k : Nat} {entries : List Entry}
    (hcalls : answers n k l = entries.map .ok) :
    ((∀ e ∈ entries, e.isEnd = false) → Returned (nextToken n (afterCalls n k l)) →
      ∃ entry l', nextToken n (afterCalls n k l) = .ok entry l') ∧
    ∃ steps, Runs n l steps entries (afterCalls n k l) ∧
      ((steps.filterMap (raised? n)).map Entry.error).Sublist
        (entries ++ (afterCalls n k l).queue.toList) ∧
      ((∃ e ∈ entries, e.isEnd = true) → (afterCalls n k l).queue.toList = []) := by
  have hrobust := restarted_robust hnew hsends hnamed heol hindent htransforms hapart history text
  rw [setInput_eq] at hset
  split at hset
  · cases hset
  cases hset
  have hopen : Open _ := restarted_open hrobust.operations (.inl hrobust.never_restores)
  obtain ⟨steps, hrun⟩ := calls_run hcalls
  have hreported := hrun.reported hrobust hopen
  refine ⟨?_, steps, hrun, hreported.errors, ?_⟩
  · intro hnoend hreturned
    cases hcall : nextToken n (afterCalls n k ((l₀.driven history).restarted text)) with
    | ok entry l' => exact ⟨entry, l', rfl⟩
    | error stop l' =>
      rw [hcall, hreported.call_returns hnoend hcall] at hreturned
      exact absurd rfl (hreturned l')
  · rintro ⟨e, he, hend⟩
    have notPlain : ¬ ∀ e ∈ entries, e.Plain := by
      intro hplain
      have := hplain e he
      cases e with
      | token | error => cases hend
      | endOfStream => exact this
    cases hreported.stage with
    | before _ hplain => exact absurd hplain notPlain
    | ending _ hplain => exact absurd hplain notPlain
    | after _ hq _ => exact hq

def reportingCalls : List Ruleset.Definition :=
  [.types [(.symbol "A", "a letter")],
   .rule { name := "main", kind := .lookahead
           handlers := [⟨.char 'a', .enqueue (.symbol "A")⟩]
           otherwise := .changeState "add_snapshot" "unknown" (.send "unknown_token" []) }]

def reportingLexer : Lexer :=
  { engine := .new ({} : Options).engineConfig
    queue := ⟨[], [], []⟩
    ruleset := Ruleset.build reportingCalls
    options := {} }

/-- A letter and the error of another character are delivered, and the calls go on. -/
theorem unknown_character_reported :
    ∃ l entries, new (Ruleset.build reportingCalls) {} = .ok reportingLexer ∧
      setInput "a?a" (reportingLexer.driven []) = .ok () l ∧
      answers 5 2 l = entries.map .ok ∧ (∀ e ∈ entries, e.isEnd = false) ∧
      raised? 5 (Program.final (nextToken 5 l)) =
        some (.located (.unknownToken "?") ⟨1, 1, 1⟩) ∧
      (∃ entry l', nextToken 5 (afterCalls 5 2 l) = .ok entry l') ∧
      ∃ steps, Runs 5 l steps entries (afterCalls 5 2 l) ∧
        ((steps.filterMap (raised? 5)).map Entry.error).Sublist
          (entries ++ (afterCalls 5 2 l).queue.toList) := by
  have hnew : new (Ruleset.build reportingCalls) {} = .ok reportingLexer := rfl
  have hset := setInput_eq "a?a" (reportingLexer.driven [])
  rw [if_neg (by decide)] at hset
  obtain ⟨entries, hcalls, hnoend⟩ : ∃ entries : List Entry,
      answers 5 2 ((reportingLexer.driven []).restarted "a?a") = entries.map .ok ∧
        ∀ e ∈ entries, (!e.isEnd) = true := delivered_of_all (by decide +kernel)
  have hnoend : ∀ e ∈ entries, e.isEnd = false := by simpa using hnoend
  have hnamed : ∀ type, (Ruleset.build reportingCalls).hasType type = true →
      type.isBlankSymbol = false := by
    intro type ht
    have hA : TokenType.symbol "A" = type := by
      simpa [Ruleset.hasType, show (Ruleset.build reportingCalls).types =
        some [(.symbol "A", "a letter")] from rfl] using ht
    exact hA ▸ rfl
  obtain ⟨hnext, steps, hrun, herrors, -⟩ := malformed_input_reported hnew (by decide) hnamed
    rfl rfl (by simp) EngineConfig.default_apart hset hcalls
  exact ⟨_, entries, hnew, hset, hcalls, hnoend, by decide +kernel,
    hnext hnoend (by decide +kernel), steps, hrun, herrors⟩

end TableLexer.Lexer
