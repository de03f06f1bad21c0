import TableLexer.Proofs.FreshInput
import TableLexer.Proofs.Lexer.Runs
import TableLexer.Proofs.LineEnds

/-!
# Tokens that stay unfinished

The driver settles a token in progress after a rule that succeeded, and after one that raised a
lexical error. An error of another kind breaks a driver step off before it settles anything, so a
rule that raises one in the middle of a token leaves the token unfinished. Nothing else does. The
lexer then takes no new input any more, for input is refused in the middle of a token.
-/
namespace TableLexer.Lexer

variable {n : Nat} {l a b : Lexer} {steps : List Lexer} {fault : LexError}

theorem capturing_raises {α : Type} {m : LexerM α}
    (h : capturing m l = .error (.fault fault) b) :
    m l = .error (.fault fault) b ∧ fault.kind ≠ .lexical := by
  refine ⟨?_, capturing_fails h⟩
  rw [capturing_eq] at h
  split at h
  · cases h
  · next hm =>
    split at h
    · cases h
    · cases h
      exact hm
  · cases h

theorem nextChar_fault_rests {e e' : Engine}
    (hr : e.recognition = .ready ∨ e.recognition = .recognized)
    (h : Engine.nextChar e = .error fault e') : e'.recognition ≠ .tokenizing := by
  have hrel : e.released.recognition = .ready := by
    rcases hr with hr | hr <;> simp [Engine.released, hr]
  rw [Engine.nextChar_eq (hr.imp_right .inr)] at h
  split at h
  · cases h
  · split at h
    · cases h
    · split at h
      · cases h
        simp [Engine.takeChars, Engine.advance, Engine.pushLexeme, hrel]
      · cases h

theorem settle_fault_rests {rule : String} {start : Mark} {captured : Bool}
    (h : settle rule start captured l = .error (.fault fault) b) :
    b.engine.recognition ≠ .tokenizing := by
  have skipped : ∀ c : Lexer, c.engine = l.engine →
      (l.engine.recognition = .ready ∨ l.engine.recognition = .recognized) →
      skipChar c = .error (.fault fault) b → b.engine.recognition ≠ .tokenizing := by
    intro c hc hr hs
    rw [skipChar_eq] at hs
    split at hs
    · cases hs
    · next hn =>
      cases hs
      exact nextChar_fault_rests (hc ▸ hr) hn
  rw [settle_eq] at h
  cases hr : l.engine.recognition with
  | tokenizing | failed | done | aborted => simp [hr] at h
  | waitingForInput =>
    simp only [hr] at h
    cases h
    simp [hr]
  | ready =>
    simp only [hr] at h
    split at h
    · exact skipped _ (complained_engine _ _ _) (.inl hr) h
    · cases h
  | recognized =>
    simp only [hr] at h
    split at h
    · exact skipped _ (complained_engine _ _ _) (.inr hr) h
    · cases h

/-- A driver step that fails in the middle of a token failed in its rule. -/
theorem fillStep_unfinished (hr : l.engine.recognition ≠ .tokenizing)
    (h : fillStep n l = .error (.fault fault) b) (ht : b.engine.recognition = .tokenizing) :
    ruleRun? n l = some (.error (.fault fault) b) ∧ fault.kind ≠ .lexical := by
  by_cases hs : l.engine.Scannable
  · obtain ⟨o, e, hlay⟩ := Engine.scanLayout_total hs
    have hlaid := (Engine.scanLayout_eq_ok_iff.mp hlay).2
    have hrest := (hlaid.fresh hs hr).between
    rw [fillStep_eq n hlay] at h
    cases o with
    | some outcome =>
      exfalso
      cases outcome with
      | token => cases hlaid
      | endOfStream => cases h
      | indentation =>
        rw [afterLayout, enqueueIndent_eq (l := { l with engine := e })
          hlaid.indentation_recognized] at h
        split at h
        · cases h
        · cases h
          exact hrest ht
      | lineEnd =>
        rw [afterLayout, enqueueLineEnd_eq] at h
        split at h
        · split at h
          · cases h
          · cases h
            exact hrest ht
        · cases h
    | none =>
      rw [afterLayout, applyModeRule_eq] at h
      cases hname : l.options.ruleFor? l.modes.current with
      | none =>
        simp only [hname] at h
        cases h
        exact absurd ht hrest
      | some name =>
        cases hrule : l.ruleset.rule? name with
        | none =>
          simp only [hname, hrule] at h
          cases h
          exact absurd ht hrest
        | some r =>
          simp only [hname, hrule] at h
          split at h
          · exact absurd ht (settle_fault_rests h)
          · next hcap =>
            cases h
            obtain ⟨hrun, hk⟩ := capturing_raises hcap
            exact ⟨by simp [ruleRun?, hlay, modeRule?, hname, hrule, hrun], hk⟩
  · obtain ⟨fault', -, hf⟩ := fillStep_refuses n hs
    rw [hf] at h
    cases h
    exact absurd ht hr

/-- A call for the next entry comes to a rule that fails in the middle of a token, with an error
that is not lexical. -/
def Interrupts (n : Nat) (l : Lexer) : Prop :=
  ∃ steps a fault b, Runs n l steps [] a ∧ a.queue.toList = [] ∧
    ruleRun? n a = some (.error (.fault fault) b) ∧ fault.kind ≠ .lexical ∧
    b.engine.recognition = .tokenizing

theorem Runs.rests {entries : List Entry} (h : Runs n l steps entries a)
    (hr : l.engine.recognition ≠ .tokenizing) : a.engine.recognition ≠ .tokenizing := by
  induction h with
  | start => exact hr
  | fill _ _ hstep ih => exact fillStep_rests ih hstep
  | deliver _ _ ih => exact ih

/-- Rounds spent on the steps of a run are rounds saved after it. -/
theorem Runs.fillQueue_eq {entries : List Entry} (h : Runs n l steps entries a)
    (hnone : entries = []) (rounds : Nat) :
    fillQueue n (rounds + steps.length) l = fillQueue n rounds a := by
  induction h generalizing rounds with
  | start => rfl
  | fill _ hq hstep ih =>
    rw [List.length_append, List.length_singleton, Nat.add_comm _ 1, ← Nat.add_assoc,
      ih hnone, fillQueue_empty hq, hstep]
  | deliver => simp at hnone

/-- A call that comes back from where a run breaks off has failed there. -/
theorem Runs.call_fails (h : Runs n l steps [] a) (hq : a.queue.toList = [])
    (hstep : fillStep n a = .error (.fault fault) b) (hl : l.queue.toList = [])
    (hr : l.engine.recognition = .ready ∨ l.engine.recognition = .recognized)
    (hret : Returned (nextToken n l)) : nextToken n l = .error (.fault fault) b := by
  rw [nextToken_fills hl hr] at hret ⊢
  have hfill : Returned (fillQueue n n l) := by
    intro c hc
    rw [hc] at hret
    exact hret c rfl
  have hmore := fillQueue_extends (Nat.le_refl n)
    (show n ≤ n + 1 + steps.length by omega) l hfill
  rw [h.fillQueue_eq rfl, fillQueue_empty hq, hstep] at hmore
  rw [← hmore]

theorem Runs.origin {entries : List Entry} (h : Runs n l steps entries a)
    (hnone : entries = []) (hq : a.queue.toList = []) (hs : a.engine.Scannable) :
    l.queue.toList = [] ∧ l.engine.Scannable := by
  induction h with
  | start => exact ⟨hq, hs⟩
  | fill _ hqa hstep ih => exact ih hnone hqa (fillStep_scannable hstep)
  | deliver => simp at hnone

/-- A call that comes back leaves a token unfinished if and only if it comes to a rule that fails
in the middle of one. -/
theorem nextToken_unfinished_iff (hr : l.engine.recognition ≠ .tokenizing)
    (hret : Returned (nextToken n l)) :
    (Program.final (nextToken n l)).engine.recognition = .tokenizing ↔ Interrupts n l := by
  constructor
  · intro ht
    cases hcall : nextToken n l with
    | ok entry b =>
      rw [hcall] at ht
      obtain ⟨steps, hrun⟩ := nextToken_runs hcall
      exact absurd ht (hrun.rests hr)
    | error stop b =>
      rw [hcall] at ht hret
      cases stop with
      | exhausted => exact absurd rfl (hret b)
      | fault fault =>
        rcases nextToken_breaks hcall with ⟨-, -, rfl⟩ | ⟨steps, a, hrun, hq, hstep⟩
        · exact absurd ht hr
        · obtain ⟨hrule, hk⟩ := fillStep_unfinished (hrun.rests hr) hstep ht
          exact ⟨steps, a, fault, b, hrun, hq, hrule, hk, ht⟩
  · rintro ⟨steps, a, fault, b, hrun, hq, hrule, hk, ht⟩
    obtain ⟨hl, hs⟩ := hrun.origin rfl hq (ruleRun?_scannable hrule)
    have hbetween : l.engine.recognition = .ready ∨ l.engine.recognition = .recognized :=
      hs.imp_right fun h => h.resolve_left hr
    rw [hrun.call_fails hq (fillStep_of_fault hrule hk) hl hbetween hret]
    exact ht

/-- With a token unfinished no request gets further than the queue. -/
theorem served_unfinished (h : l.engine.recognition = .tokenizing) (r : Request) :
    (l.served r).engine.recognition = .tokenizing := by
  cases r with
  | input text => simp [served, setInput_eq, h]
  | entry n =>
    cases hq : l.queue.toList with
    | nil =>
      have he : l.queue.isEmpty = true := (Queue.isEmpty_iff _).mpr hq
      simp [served, nextToken, h, he, fail]
    | cons entry rest =>
      obtain ⟨q, -, -, hnext⟩ := nextToken_queued (by simp [h]) hq
      simp [served, hnext, h]

theorem driven_append (l : Lexer) (earlier later : List Request) :
    l.driven (earlier ++ later) = (l.driven earlier).driven later := by
  induction earlier generalizing l with
  | nil => rfl
  | cons r earlier ih => exact ih (l.served r)

theorem driven_unfinished (h : l.engine.recognition = .tokenizing) (history : List Request) :
    (l.driven history).engine.recognition = .tokenizing := by
  induction history generalizing l with
  | nil => exact h
  | cons r history ih => exact ih (served_unfinished h r)

def Returns (l : Lexer) : List Request → Prop
  | [] => True
  | .input text :: rest => (l.served (.input text)).Returns rest
  | .entry n :: rest => Returned (nextToken n l) ∧ (l.served (.entry n)).Returns rest

/-- Somewhere in the history a call comes to a rule that fails in the middle of a token. -/
def Interrupted (l : Lexer) (history : List Request) : Prop :=
  ∃ earlier n later, history = earlier ++ .entry n :: later ∧ Interrupts n (l.driven earlier)

theorem interrupted_cons {r : Request} {history : List Request} :
    l.Interrupted (r :: history) ↔
      (∃ n, r = .entry n ∧ Interrupts n l) ∨ (l.served r).Interrupted history := by
  constructor
  · rintro ⟨earlier, n, later, heq, hi⟩
    cases earlier with
    | nil =>
      simp only [List.nil_append, List.cons.injEq] at heq
      exact .inl ⟨n, heq.1, hi⟩
    | cons r' earlier =>
      simp only [List.cons_append, List.cons.injEq] at heq
      obtain ⟨rfl, heq⟩ := heq
      exact .inr ⟨earlier, n, later, heq, hi⟩
  · rintro (⟨n, rfl, hi⟩ | ⟨earlier, n, later, rfl, hi⟩)
    · exact ⟨[], n, history, rfl, hi⟩
    · exact ⟨r :: earlier, n, later, rfl, hi⟩

theorem setInput_rests (hr : l.engine.recognition ≠ .tokenizing) (text : String) :
    (l.served (.input text)).engine.recognition ≠ .tokenizing := by
  rw [served, setInput_eq, if_neg hr]
  simp [restarted, Scan.initial]

/-- By induction on the history; the first request that leaves a token unfinished decides. -/
theorem driven_unfinished_iff (hr : l.engine.recognition ≠ .tokenizing)
    {history : List Request} (hret : l.Returns history) :
    (l.driven history).engine.recognition = .tokenizing ↔ l.Interrupted history := by
  induction history generalizing l with
  | nil => simp [driven, hr, Interrupted]
  | cons r history ih =>
    rw [driven, interrupted_cons]
    cases r with
    | input text => simp [ih (setInput_rests hr text) hret]
    | entry n =>
      obtain ⟨hcall, hret⟩ := hret
      have hiff := nextToken_unfinished_iff hr hcall
      by_cases ht : (l.served (.entry n)).engine.recognition = .tokenizing
      · have hi := hiff.mp ht
        simp [driven_unfinished ht history, hi]
      · have hno : ¬ Interrupts n l := fun hi => ht (hiff.mpr hi)
        simp [ih ht hret, hno]

/-- A lexer stays usable unless a rule fails in the middle of a token. Let a lexer serve requests
that all come back. A token is unfinished afterwards if and only if some call came to a rule that
failed in the middle of a token with an error that is not lexical. If none did, new input is
accepted; if one did, new input is refused, and no later request changes that. -/
theorem unfinished_iff_interrupted {rs : Ruleset} {options : Options} {l₀ : Lexer}
    (hnew : new rs options = .ok l₀) {history : List Request} (hret : l₀.Returns history) :
    ((l₀.driven history).engine.recognition = .tokenizing ↔ l₀.Interrupted history) ∧
    (¬ l₀.Interrupted history → ∀ text, ∃ l, setInput text (l₀.driven history) = .ok () l ∧
      l.engine.recognition = .ready) ∧
    (l₀.Interrupted history → ∀ later text,
      setInput text (l₀.driven (history ++ later)) =
        .error (.fault (.plain .inputDuringToken)) (l₀.driven (history ++ later))) := by
  have hrest : l₀.engine.recognition ≠ .tokenizing := by
    obtain ⟨-, -, -, -, rfl⟩ := new_eq_ok_iff.mp hnew
    simp [Engine.new, Scan.initial]
  have hiff := driven_unfinished_iff hrest hret
  refine ⟨hiff, ?_, ?_⟩
  · intro hno text
    exact setInput_accepted (fun ht => hno (hiff.mp ht)) text
  · intro hi later text
    rw [driven_append, setInput_eq, if_pos (driven_unfinished (hiff.mpr hi) later)]

def poppingRules : Ruleset :=
  { types := some [(.symbol "A", "a letter")]
    rules := [{ name := "main", kind := .standard, otherwise := .send "pop_mode" [] }] }

def poppingLexer : Lexer :=
  { engine := .new ({} : Options).engineConfig
    queue := ⟨[], [], []⟩
    ruleset := poppingRules
    options := {} }

/-- The rule has read a letter when it fails, and no text is accepted after that. -/
theorem popping_mode_blocks_input :
    new poppingRules {} = .ok poppingLexer ∧
      poppingLexer.Returns [.input "a", .entry 3] ∧
      (poppingLexer.driven [.input "a", .entry 3]).engine.recognition = .tokenizing ∧
      poppingLexer.Interrupted [.input "a", .entry 3] ∧
      ∀ later text, setInput text (poppingLexer.driven ([.input "a", .entry 3] ++ later)) =
        .error (.fault (.plain .inputDuringToken))
          (poppingLexer.driven ([.input "a", .entry 3] ++ later)) := by
  have hnew : new poppingRules {} = .ok poppingLexer := rfl
  have hret : poppingLexer.Returns [.input "a", .entry 3] := ⟨by decide +kernel, trivial⟩
  have htoken : (poppingLexer.driven [.input "a", .entry 3]).engine.recognition = .tokenizing := by
    decide +kernel
  obtain ⟨hiff, -, hrefused⟩ := unfinished_iff_interrupted hnew hret
  exact ⟨hnew, hret, htoken, hiff.mp htoken, hrefused (hiff.mp htoken)⟩

end TableLexer.Lexer
