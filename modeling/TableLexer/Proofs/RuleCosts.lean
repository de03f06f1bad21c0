import TableLexer.Proofs.Engine.Lexemes
import TableLexer.Proofs.Lexer.Commands
import TableLexer.Proofs.UnfinishedTokens

/-!
# What a rule costs

A rule is applied in the body of a line, and the driver settles what it leaves behind. It is to get
on every time: beyond the place where the rule was applied, to a line end, or to the end of the
stream. It does unless the rule falls back, which the driver does not notice: it looks for a
rule that consumed nothing only between tokens, and only at the very place where the rule started.
A rule does not fall back if it returns to no snapshots but those it has taken itself.
-/
namespace TableLexer.Lexer

def LineEndMet (start now : Mark) : Prop :=
  start.lineState ≠ .atLineEnd ∧ now.lineState = .atLineEnd

instance (start now : Mark) : Decidable (LineEndMet start now) :=
  inferInstanceAs (Decidable (_ ∧ _))

inductive GotOn (start : Mark) (l : Lexer) : Prop where
  | consumed (h : start.pos < l.engine.pos)
  | lineEnd (h : LineEndMet start l.engine.toMark)
  | ended (hr : l.engine.recognition = .done ∨ l.engine.recognition = .aborted)
      (hq : ∃ before token, l.queue.toList = before ++ [.endOfStream token])

/-- A token is in progress or given up that has not come beyond the mark, or scanning stands between
tokens behind the mark. -/
def FellBack (start : Mark) (e : Engine) : Prop :=
  ¬ LineEndMet start e.toMark ∧
    ((e.recognition = .tokenizing ∨ e.recognition = .failed) ∧ e.pos ≤ start.pos ∨
      (e.recognition = .ready ∨ e.recognition = .recognized) ∧ e.pos < start.pos)

instance (start : Mark) (e : Engine) : Decidable (FellBack start e) :=
  inferInstanceAs (Decidable (_ ∧ _))

variable {n : Nat} {l a b : Lexer} {e : Engine} {start : Mark}

theorem stalled_iff {now : Mark} :
    stalled start now = true ↔ now.pos = start.pos ∧ ¬ LineEndMet start now := by
  simp only [stalled, LineEndMet, Bool.and_eq_true, beq_iff_eq, Bool.not_eq_true', bne_iff_ne,
    Bool.and_eq_false_imp, beq_eq_false_iff_ne, not_and]

theorem gotOn_iff (hd : l.engine.recognition ≠ .done) (ha : l.engine.recognition ≠ .aborted) :
    GotOn start l ↔ start.pos < l.engine.pos ∨ LineEndMet start l.engine.toMark := by
  constructor
  · rintro (h | h | ⟨hr, -⟩)
    · exact .inl h
    · exact .inr h
    · exact absurd hr (not_or.mpr ⟨hd, ha⟩)
  · rintro (h | h)
    · exact .consumed h
    · exact .lineEnd h

theorem fellBack_unfinished (hr : e.recognition = .tokenizing ∨ e.recognition = .failed) :
    FellBack start e ↔ ¬ (start.pos < e.pos ∨ LineEndMet start e.toMark) := by
  unfold FellBack
  rcases hr with hr | hr <;> simp [hr, not_or, and_comm]

theorem fellBack_between (hr : e.recognition = .ready ∨ e.recognition = .recognized) :
    FellBack start e ↔ ¬ LineEndMet start e.toMark ∧ e.pos < start.pos := by
  unfold FellBack
  rcases hr with hr | hr <;> simp [hr]

/-- What keeps to the place where a rule was applied has not fallen back behind it. -/
theorem not_fellBack (h : e.Advancing start.pos) : ¬ FellBack start e := by
  have hforward := h.forward
  rintro ⟨-, ⟨hr, hle⟩ | ⟨-, hlt⟩⟩
  · have := h.in_progress hr
    omega
  · omega

theorem skipChar_moves (hs : l.engine.separator? = none)
    (hlt : l.engine.pos < l.engine.input.length) (h : skipChar l = .ok () b) : b.engine.pos = l.engine.pos + 1 := by
  rw [skipChar_eq] at h
  cases hread : Engine.nextChar l.engine with
  | error fault e => simp [hread] at h
  | ok c e =>
    simp only [hread] at h
    cases h
    have hpos : l.engine.released.pos = l.engine.pos := by simp
    cases (Engine.nextChar_cases hread).2 with
    | endOfStream hc =>
      have := List.getElem?_eq_none_iff.mp hc
      omega
    | separator _ hp => simp [hs] at hp
    | plain =>
      change l.engine.released.pos + 1 = l.engine.pos + 1
      rw [hpos]

section Settle

variable {rule : String} {captured : Bool}

/-- A rule that consumed nothing costs one character, and the driver complains about it. -/
theorem settle_skips (hs : l.engine.separator? = none) (hlt : l.engine.pos < l.engine.input.length)
    (hr : l.engine.recognition = .ready ∨ l.engine.recognition = .recognized)
    (hstall : stalled start l.engine.toMark = true) (h : settle rule start captured l = .ok () b) :
    b.engine.pos = l.engine.pos + 1 ∧ b.queue =
      (l.complained (.located (.stalledRule rule) l.engine.currentPosition) captured).queue := by
  generalize hc : l.complained (.located (.stalledRule rule) l.engine.currentPosition) captured = c
  have hce : c.engine = l.engine := by rw [← hc, complained_engine]
  have hskip : skipChar c = .ok () b := by
    rw [settle_eq] at h
    rw [← hc]
    rcases hr with hr | hr <;> simpa [hr, hstall] using h
  have hqueue := (skipChar_books c).queue
  rw [hskip, Program.final_ok] at hqueue
  refine ⟨?_, hqueue⟩
  rw [← hce] at hs hlt ⊢
  exact skipChar_moves hs hlt hskip

theorem settle_reports (hs : l.engine.separator? = none)
    (hlt : l.engine.pos < l.engine.input.length)
    (hr : l.engine.recognition = .ready ∨ l.engine.recognition = .recognized)
    (hstall : stalled start l.engine.toMark = true)
    (hcaptured : captured = true → ∃ before err, l.queue.toList = before ++ [.error err])
    (h : settle rule start captured l = .ok () b) :
    b.engine.pos = l.engine.pos + 1 ∧ ∃ before err, b.queue.toList = before ++ [.error err] := by
  obtain ⟨hmoved, hqueue⟩ := settle_skips hs hlt hr hstall h
  refine ⟨hmoved, ?_⟩
  rw [hqueue]
  cases captured with
  | true => exact hcaptured rfl
  | false => exact ⟨_, _, errorQueued_toList _ l⟩

theorem settle_between_gotOn_iff
    (hs : l.engine.config.eol.consumedAt? l.engine.input start.pos = none)
    (hlt : start.pos < l.engine.input.length)
    (hr : l.engine.recognition = .ready ∨ l.engine.recognition = .recognized)
    (h : settle rule start captured l = .ok () b) :
    GotOn start b ↔ ¬ FellBack start l.engine := by
  rw [fellBack_between hr]
  by_cases hstall : stalled start l.engine.toMark
  · obtain ⟨hpos, -⟩ := stalled_iff.mp hstall
    rw [← hpos] at hs hlt
    obtain ⟨hmoved, -⟩ := settle_skips hs hlt hr hstall h
    exact iff_of_true (.consumed (by omega)) (by omega)
  · obtain rfl : l = b := by
      rw [settle_eq] at h
      rcases hr with hr | hr <;> simpa [hr, hstall] using h
    rw [stalled_iff] at hstall
    rw [gotOn_iff (by rcases hr with hr | hr <;> simp [hr])
      (by rcases hr with hr | hr <;> simp [hr])]
    by_cases hmet : LineEndMet start l.engine.toMark
    · simp [hmet]
    · have hne : l.engine.pos ≠ start.pos := fun he => hstall ⟨he, hmet⟩
      simp only [hmet, or_false, not_false_eq_true, true_and]
      omega

/-- After a rule that started in the body of a line, settling gets on unless the rule fell back. -/
theorem settle_gotOn_iff (hs : l.engine.config.eol.consumedAt? l.engine.input start.pos = none)
    (hlt : start.pos < l.engine.input.length) (h : settle rule start captured l = .ok () b) :
    GotOn start b ↔ ¬ FellBack start l.engine := by
  cases hr : l.engine.recognition with
  | tokenizing | failed =>
    have hrest : l.engine.rested = { l.engine with recognition := .ready, lexeme := [] } := by
      simp [Engine.rested, hr]
    simp only [settle_eq, hr, hrest, EStateM.Result.ok.injEq, true_and] at h
    subst h
    rw [fellBack_unfinished (by simp [hr]), Classical.not_not]
    exact gotOn_iff (by simp) (by simp)
  | ready | recognized => exact settle_between_gotOn_iff hs hlt (by simp [hr]) h
  | done | aborted =>
    simp only [settle_eq, hr, EStateM.Result.ok.injEq, true_and] at h
    subst h
    refine iff_of_true (.ended (by simp [endQueued, complained_engine, hr]) ?_) ?_
    · exact ⟨_, _, endQueued_toList _⟩
    · simp [FellBack, hr]
  | waitingForInput => simp [settle_eq, hr] at h

end Settle

def ruleEnd (n : Nat) (l : Lexer) : Lexer := Program.final (perform (l.modeSteps n) l.counted)

theorem capturing_ending {α : Type} {m : LexerM α} {steps : List Step}
    (h : ending (m l) = perform steps l) : capturing m l = capturing (perform steps) l := by
  rw [capturing_eq, capturing_eq, ← h]
  cases m l with
  | ok => rfl
  | error stop => cases stop <;> rfl

theorem capturing_engine {α : Type} {m : LexerM α} {captured : Bool}
    (h : capturing m l = .ok captured a) : a.engine = (Program.final (m l)).engine ∧
      (captured = true → ∃ before err, a.queue.toList = before ++ [.error err]) := by
  rw [capturing_eq] at h
  split at h
  · next hm =>
    cases h
    exact ⟨by rw [hm, Program.final_ok], by simp⟩
  · next hm =>
    split at h
    · cases h
      exact ⟨by rw [hm]; rfl, fun _ => ⟨_, _, errorQueued_toList _ _⟩⟩
    · cases h
  · cases h

theorem applyModeRule_eq_ok (hops : l.operations = []) (h : applyModeRule n l = .ok () b) :
    ∃ rule captured a, capturing (perform (l.modeSteps n)) l.counted = .ok captured a ∧
      settle rule l.engine.toMark captured a = .ok () b := by
  rw [applyModeRule_eq] at h
  cases hname : l.options.ruleFor? l.modes.current with
  | none => simp [hname] at h
  | some name =>
    cases hrule : l.ruleset.rule? name with
    | none => simp [hname, hrule] at h
    | some r =>
      simp only [hname, hrule] at h
      have hsteps : l.modeSteps n = r.steps (respondSteps n) l.counted := by
        simp [modeSteps, hname, hrule]
      rw [capturing_ending (Rule.run_eq_perform (respond_answers n) r l.counted hops),
        ← hsteps] at h
      split at h
      · next captured a hcap => exact ⟨name, captured, a, hcap, h⟩
      · cases h

/-- How many of the newest snapshots a rule has taken itself after the step, if they were `own`
before it; none if the step returns to another. -/
def Step.own? (own : Nat) (s : Step) : Option Nat :=
  match s.snapshotCommand? with
  | some .addSnapshot => some (own + 1)
  | some .restoreSnapshot => if own = 0 then none else some (own - 1)
  | some .popSnapshot => some (own - 1)
  | _ => some own

def own? (own : Nat) : List Step → Option Nat
  | [] => some own
  | s :: rest => (s.own? own).bind fun inner => own? inner rest

def ReturnsToOwn (steps : List Step) : Prop := (own? 0 steps).isSome

instance (steps : List Step) : Decidable (ReturnsToOwn steps) := inferInstanceAs (Decidable (_ = _))

/-- What holds while a rule is applied that started at the place `place` and has taken `own` of the
snapshots itself. -/
structure Within (place own : Nat) (l : Lexer) : Prop where
  applying : l.Applying place
  saved : ∀ s ∈ l.engine.snapshots.take own, Engine.Advancing place { l.engine with toScan := s }

variable {place own inner : Nat}

theorem Step.message_of_snapshotCommand? {s : Step} {c : Engine.Command}
    (h : s.snapshotCommand? = some c) :
    ∃ args, s = .message "add_snapshot" args ∨ s = .message "restore_snapshot" args ∨
      s = .message "pop_snapshot" args := by
  cases s with
  | message name args =>
    refine ⟨args, ?_⟩
    change Lexer.snapshotCommand? name = some c at h
    unfold Lexer.snapshotCommand? at h
    split at h
    · exact .inl rfl
    · exact .inr (.inl rfl)
    · exact .inr (.inr rfl)
    · cases h
  | _ => cases h

theorem Within.sameText (h : l.Within place own) {c : Lexer} (ha : c.Applying place)
    (ht : l.engine.SameText c.engine)
    (hs : ∀ s ∈ c.engine.snapshots.take inner, s ∈ l.engine.snapshots.take own) :
    c.Within place inner :=
  ⟨ha, fun s hmem => (h.saved s (hs s hmem)).sameScan rfl ht.config ht.input⟩

theorem Within.added (h : l.Within place own) :
    Within place (own + 1) { l with engine := l.engine.addSnapshot } := by
  refine ⟨⟨h.applying.engine.sameScan rfl rfl rfl, h.applying.queue⟩, ?_⟩
  exact List.forall_mem_cons.mpr ⟨h.applying.engine.sameScan rfl rfl rfl,
    fun s hmem => (h.saved s hmem).sameScan rfl rfl rfl⟩

theorem Within.restored (h : l.Within place (own + 1)) :
    Kept (Within place own) (onEngine Engine.restoreSnapshot l) := by
  unfold onEngine Engine.restoreSnapshot
  cases hsnap : l.engine.snapshots with
  | nil => exact fun hk => nomatch hk
  | cons saved older =>
    have hall := h.saved
    rw [hsnap, List.take_succ_cons, List.forall_mem_cons] at hall
    exact ⟨⟨hall.1.sameScan rfl rfl rfl, h.applying.queue⟩,
      fun s hmem => (hall.2 s hmem).sameScan rfl rfl rfl⟩

theorem Within.popped (h : l.Within place own) :
    Within place (own - 1) { l with engine := l.engine.popSnapshot.2 } := by
  have htail : l.engine.snapshots.tail.take (own - 1) = (l.engine.snapshots.take own).tail := by
    cases l.engine.snapshots <;> cases own <;> simp
  refine h.sameText ⟨h.applying.engine.sameScan rfl rfl rfl, h.applying.queue⟩ ⟨rfl, rfl⟩ ?_
  intro s hmem
  rw [Engine.popSnapshot, htail] at hmem
  exact List.mem_of_mem_tail hmem

theorem Step.run_within {s : Step} (hs : s.own? own = some inner) (h : l.Within place own) :
    Kept (Within place inner) (s.run l) := by
  cases hc : s.snapshotCommand? with
  | none =>
    obtain rfl : own = inner := by simpa [Step.own?, hc] using hs
    have honward : s.Onward := by
      rintro args rfl
      cases hc
    refine (Step.run_applying honward h.applying).imp fun ha => ?_
    refine h.sameText ha (s.run_frame l).text ?_
    rw [Step.run_snapshots hc]
    exact fun _ => id
  | some c =>
    obtain ⟨args, rfl | rfl | rfl⟩ := Step.message_of_snapshotCommand? hc
    · obtain rfl : own + 1 = inner := Option.some.inj hs
      exact h.added
    · cases own with
      | zero => cases hs
      | succ own =>
        obtain rfl : own = inner := Option.some.inj hs
        rw [Step.run_message, kept_ending]
        exact kept_answered h.restored none
    · obtain rfl : own - 1 = inner := Option.some.inj hs
      exact h.popped

/-- By induction on the steps, the last of which may have raised an error. -/
theorem perform_within {steps : List Step} (hs : own? own steps = some inner)
    (h : l.Within place own) : Kept (Applying place) (perform steps l) := by
  induction steps generalizing l own with
  | nil => exact h.applying
  | cons s rest ih =>
    obtain ⟨m, hm, hrest⟩ := Option.bind_eq_some_iff.mp hs
    have hstep := s.run_within hm h
    rw [perform, Program.bind_apply]
    cases hr : s.run l with
    | ok _ l' =>
      rw [hr] at hstep
      exact ih hrest hstep
    | error stop l' =>
      rw [hr] at hstep
      exact Kept.imp hstep Within.applying

/-- A call for the next entry has come to apply a rule: it was made between tokens, its steps have
left the queue empty, and there is nothing to report about the layout. -/
structure ComesToRule (n : Nat) (l a : Lexer) (e : Engine) : Prop where
  between : l.engine.recognition = .ready ∨ l.engine.recognition = .recognized
  run : ∃ steps, Runs n l steps [] a
  empty : a.queue.toList = []
  body : Engine.scanLayout a.engine = .ok none e

/-- A rule starts inside the text, at a place that nothing but a snapshot leads behind. -/
theorem ComesToRule.starts {rs : Ruleset} {options : Options} {l₀ : Lexer}
    (h : ComesToRule n l a e) (hl : Reached l₀ l) (hnew : new rs options = .ok l₀) :
    a.operations = [] ∧ e.Advancing e.pos ∧ e.pos < e.input.length := by
  have hops : l.operations = [] := by
    obtain ⟨-, -, -, -, rfl⟩ := new_eq_ok_iff.mp hnew
    exact (hl.leads rfl).2
  obtain ⟨steps, hrun⟩ := h.run
  obtain ⟨hscan, hlaid⟩ := Engine.scanLayout_eq_ok_iff.mp h.body
  have hbetween : a.engine.recognition = .ready ∨ a.engine.recognition = .recognized := by
    have hrest := hrun.rests (by rcases h.between with hr | hr <;> simp [hr])
    exact hscan.imp_right fun hs => hs.resolve_left hrest
  have hrecorded : a.engine.Recorded := by
    obtain ⟨cs, hcs⟩ := hl.engine hnew
    obtain ⟨ds, -, hds⟩ := hrun.leads hops
    rw [hds, hcs]
    exact Engine.after_recorded (Engine.after_recorded (Engine.new_recorded _) cs) ds
  refine ⟨(hrun.frame hops).operations.trans hops, ?_, ?_⟩
  · exact hlaid.advancing hbetween hrecorded.current.between
  · cases hlaid with
    | body _ he => simpa [Engine.atEnd] using he

/-- Rules cost input, unless they fall back. Let a call for the next entry, made of a lexer in use
without registered operations, apply a rule where the layout reports nothing, and come through. The
driver gets on if and only if the rule has not fallen back; a rule does not that returns to no
snapshots but its own; and a rule that consumed nothing is reported and costs one character. -/
theorem rule_costs_input {rs : Ruleset} {options : Options} {l₀ : Lexer}
    (hnew : new rs options = .ok l₀) (hl : Reached l₀ l) (hrule : ComesToRule n l a e)
    (hok : applyModeRule n { a with engine := e } = .ok () b) :
    (GotOn e.toMark b ↔ ¬ FellBack e.toMark (ruleEnd n { a with engine := e }).engine) ∧
    (ReturnsToOwn (modeSteps n { a with engine := e }) → GotOn e.toMark b) ∧
    (stalled e.toMark (ruleEnd n { a with engine := e }).engine.toMark = true →
      (ruleEnd n { a with engine := e }).engine.recognition = .ready ∨
        (ruleEnd n { a with engine := e }).engine.recognition = .recognized →
      b.engine.pos = e.pos + 1 ∧ ∃ before err, b.queue.toList = before ++ [.error err]) := by
  obtain ⟨hops, hadvancing, hlt⟩ := hrule.starts hl hnew
  obtain ⟨rule, captured, m, hcap, hset⟩ :=
    applyModeRule_eq_ok (l := { a with engine := e }) hops hok
  obtain ⟨hengine, hcaptured⟩ := capturing_engine hcap
  have htext : e.SameText m.engine := by
    rw [hengine]
    exact (perform_frame _ (counted { a with engine := e })).text
  have hplain : m.engine.config.eol.consumedAt? m.engine.input e.pos = none := by
    rw [htext.config, htext.input]
    exact hadvancing.plain
  have hinside : e.pos < m.engine.input.length := by
    rw [htext.input]
    exact hlt
  have hiff := settle_gotOn_iff hplain hinside hset
  rw [hengine] at hiff
  refine ⟨hiff, ?_, ?_⟩
  · intro hown
    obtain ⟨inner, hinner⟩ := Option.isSome_iff_exists.mp hown
    have hwithin : Within e.pos 0 (counted { a with engine := e }) := by
      refine ⟨⟨hadvancing, ?_⟩, by simp⟩
      change a.queue.AllPlain
      simp [Queue.AllPlain, hrule.empty]
    have happlying := (capturing_applying (perform_within hinner hwithin) hcap).engine
    rw [hengine] at happlying
    exact hiff.mpr (not_fellBack happlying)
  · intro hstall hr
    have hstall : stalled e.toMark m.engine.toMark = true := by
      rw [hengine]
      exact hstall
    have hpos : m.engine.pos = e.pos := (stalled_iff.mp hstall).1
    rw [← hpos] at hplain hinside ⊢
    exact settle_reports hplain hinside (by rw [hengine]; exact hr) hstall hcaptured hset

def returningRules : Ruleset :=
  { types := some [(.symbol "A", "a letter")]
    rules := [{ name := "main", kind := .standard
                handlers := [⟨.char 'a', .send "add_snapshot" []⟩,
                  ⟨.char 'b', .send "restore_snapshot" []⟩] }] }

def returningLexer : Lexer :=
  { engine := .new ({} : Options).engineConfig
    queue := ⟨[], [], []⟩
    ruleset := returningRules
    options := {} }

def betweenLetters : Lexer := Program.final (fillStep 1 (returningLexer.served (.input "ab")))

def atSecondLetter : Lexer :=
  { betweenLetters with engine := Program.final (Engine.scanLayout betweenLetters.engine) }

/-- The second letter is read, and the snapshot brings back the moment when the first one had been,
in the middle of a token. The driver ends where the rule was applied, and nothing is queued. -/
theorem return_to_earlier_costs_nothing :
    let b := Program.final (applyModeRule 1 atSecondLetter)
    new returningRules {} = .ok returningLexer ∧
      Reached returningLexer (returningLexer.served (.input "ab")) ∧
      ComesToRule 1 (returningLexer.served (.input "ab")) betweenLetters atSecondLetter.engine ∧
      applyModeRule 1 atSecondLetter = .ok () b ∧
      atSecondLetter.engine.pos = 1 ∧ b.engine.pos = 1 ∧ b.engine.recognition = .ready ∧
      b.queue.toList = [] ∧ ¬ ReturnsToOwn (modeSteps 1 atSecondLetter) ∧
      ¬ GotOn atSecondLetter.engine.toMark b := by
  have hnew : new returningRules {} = .ok returningLexer := rfl
  have hreached : Reached returningLexer (returningLexer.served (.input "ab")) :=
    .served .start (.input "ab")
  have hrun : Runs 1 (returningLexer.served (.input "ab")) [returningLexer.served (.input "ab")] []
      betweenLetters := Runs.start.fill (by decide +kernel) rfl
  have hrule : ComesToRule 1 (returningLexer.served (.input "ab")) betweenLetters
      atSecondLetter.engine := ⟨by decide +kernel, ⟨_, hrun⟩, by decide +kernel, rfl⟩
  have hok : applyModeRule 1 atSecondLetter =
      .ok () (Program.final (applyModeRule 1 atSecondLetter)) := rfl
  have hcosts := rule_costs_input hnew hreached hrule hok
  have hback : FellBack atSecondLetter.engine.toMark (ruleEnd 1 atSecondLetter).engine := by
    decide +kernel
  exact ⟨hnew, hreached, hrule, hok, by decide +kernel, by decide +kernel, by decide +kernel,
    by decide +kernel, by decide +kernel, fun h => hcosts.1.mp h hback⟩

end TableLexer.Lexer
