import TableLexer.Proofs.Lexer.Contained

/-!
# Every stream ends

Each step of the driver gets closer to the end of the text: it consumes something, or it stops
at a line end that the next step consumes. So repeated calls for the next entry deliver tokens
and lexical errors, then the end of the stream once, and are refused from then on; or an error
that is not lexical comes first.
-/
namespace TableLexer

namespace Lexer

structure Open (l : Lexer) : Prop where
  operations : l.operations = []
  onward : l.Onward
  between : l.engine.recognition = .ready ∨ l.engine.recognition = .recognized
  idle : l.engine.Idle
  queue : l.queue.AllPlain

structure Closed (l : Lexer) : Prop where
  ended : l.engine.recognition = .done ∨ l.engine.recognition = .aborted
  queue : ∃ entries token, l.queue.toList = entries ++ [.endOfStream token] ∧
    ∀ e ∈ entries, e.Plain

def AtSeparator (l : Lexer) : Prop :=
  l.engine.lineState = .atLineEnd ∧ l.engine.separator?.isSome

instance (l : Lexer) : Decidable l.AtSeparator := inferInstanceAs (Decidable (_ ∧ _))

/-- What decreases with every step of the driver: twice what is left of the text, and one more
unless the next step consumes a separator. -/
def distance (l : Lexer) : Nat :=
  2 * (l.engine.input.length - l.engine.pos) + if l.AtSeparator then 0 else 1

theorem endQueued_closed {l : Lexer}
    (hr : l.engine.recognition = .done ∨ l.engine.recognition = .aborted)
    (hq : l.queue.AllPlain) : l.endQueued.Closed := by
  refine ⟨hr, l.queue.toList, .endOfStream l.engine.currentPosition, ?_, hq⟩
  simp [endQueued, Queue.toList]

theorem errorQueued_plain {l : Lexer} {e : LexError} (he : e.kind = .lexical)
    (hq : l.queue.AllPlain) : (l.errorQueued e).queue.AllPlain := by
  have h : l.queue.enqueue (.error e) = .ok (some (.error e), (l.errorQueued e).queue) := rfl
  exact hq.enqueue (by exact he) h

theorem complained_plain {l : Lexer} {e : LexError} (he : e.kind = .lexical) (captured : Bool)
    (hq : l.queue.AllPlain) : (l.complained e captured).queue.AllPlain := by
  cases captured with
  | true => exact hq
  | false => exact errorQueued_plain he hq

structure Past (place : Nat) (l : Lexer) : Prop where
  between : l.engine.recognition = .ready ∨ l.engine.recognition = .recognized
  idle : l.engine.Idle
  queue : l.queue.AllPlain
  beyond : place < l.engine.pos

theorem skipChar_past {l : Lexer} {start : Nat} (hl : l.Applying start)
    (hr : l.engine.recognition = .ready ∨ l.engine.recognition = .recognized)
    (hp : l.engine.pos = start) (hlt : start < l.engine.input.length) :
    ∃ l', skipChar l = .ok () l' ∧ Past start l' := by
  have hs : l.engine.Scannable := hr.imp_right .inr
  have hline : l.engine.lineState ≠ .atLineEnd := by
    intro he
    have := hl.engine.line_end he
    omega
  have hsep : l.engine.separator? = none := by
    rw [Engine.separator?, hp]
    exact hl.engine.plain
  have hchar : l.engine.input[l.engine.pos]? = some (l.engine.input[start]) := by
    rw [hp]
    exact List.getElem?_eq_getElem hlt
  have hnext : Engine.nextChar l.engine = .ok (some l.engine.input[start])
      l.engine.released.charTaken := by
    simp only [Engine.nextChar_eq hs, hchar, hsep, hline, ↓reduceIte]
  refine ⟨{ l with engine := l.engine.released.charTaken.rested }, ?_, ?_⟩
  · rw [skipChar_eq, hnext]
  · have hrest : l.engine.released.charTaken.rested =
        { l.engine.released.charTaken with recognition := .ready, lexeme := [] } := rfl
    have hpos : l.engine.released.pos = l.engine.pos := by simp
    constructor
    · exact .inl rfl
    · intro _ hx
      exact absurd rfl hx
    · exact hl.queue
    · rw [hrest]
      change start < l.engine.released.pos + 1
      omega

theorem stalled_eq_false {start now : Mark} (h : stalled start now = false) :
    now.pos ≠ start.pos ∨ now.lineState = .atLineEnd := by
  by_cases hp : now.pos = start.pos
  · simp only [stalled, hp, beq_self_eq_true, Bool.true_and, Bool.not_eq_false',
      Bool.and_eq_true, beq_iff_eq] at h
    exact .inr h.2
  · exact .inl hp

theorem settle_past (start : Mark) {l : Lexer} (hl : l.Applying start.pos)
    (hlt : start.pos < l.engine.input.length) (rule : String) (captured : Bool) :
    ∃ l', settle rule start captured l = .ok () l' ∧ (Past start.pos l' ∨ l'.Closed) := by
  have rest : (l.engine.recognition = .tokenizing ∨ l.engine.recognition = .failed) →
      Past start.pos { l with engine := l.engine.rested } := by
    intro hr
    have hb := hl.engine.in_progress hr
    have he : l.engine.rested = { l.engine with recognition := .ready, lexeme := [] } := by
      rcases hr with hr | hr <;> simp [Engine.rested, hr]
    rw [he]
    constructor
    · exact .inl rfl
    · intro _ hx
      exact absurd rfl hx
    · exact hl.queue
    · exact hb
  have stay : (l.engine.recognition = .ready ∨ l.engine.recognition = .recognized) →
      ∃ l', (if stalled start l.engine.toMark then
          skipChar (l.complained (.located (.stalledRule rule) l.engine.currentPosition) captured)
        else .ok () l) = .ok () l' ∧ (Past start.pos l' ∨ l'.Closed) := by
    intro hr
    have hf := hl.engine.forward
    cases hst : stalled start l.engine.toMark with
    | true =>
      simp only [stalled, Bool.and_eq_true, beq_iff_eq] at hst
      simp only [↓reduceIte]
      generalize hcl : l.complained (.located (.stalledRule rule) l.engine.currentPosition)
        captured = c
      have hce : c.engine = l.engine := by rw [← hcl, complained_engine]
      have hc : c.Applying start.pos := by
        refine ⟨hce ▸ hl.engine, ?_⟩
        rw [← hcl]
        exact complained_plain rfl captured hl.queue
      obtain ⟨l', h, hp⟩ := skipChar_past hc (hce ▸ hr) (hce ▸ hst.1) (hce ▸ hlt)
      exact ⟨l', h, .inl hp⟩
    | false =>
      refine ⟨l, by simp, .inl ⟨hr, hl.engine.idle, hl.queue, ?_⟩⟩
      rcases stalled_eq_false hst with hne | hend
      · omega
      · exact hl.engine.line_end hend
  rw [settle_eq]
  cases hr : l.engine.recognition with
  | waitingForInput => exact absurd hr hl.engine.input_given
  | tokenizing => exact ⟨_, rfl, .inl (rest (.inl hr))⟩
  | failed => exact ⟨_, rfl, .inl (rest (.inr hr))⟩
  | done => exact ⟨_, rfl, .inr (endQueued_closed (.inl hr) hl.queue)⟩
  | aborted =>
    refine ⟨_, rfl, .inr (endQueued_closed (.inr ?_) (complained_plain rfl captured hl.queue))⟩
    rw [complained_engine, hr]
  | ready => exact stay (.inl hr)
  | recognized => exact stay (.inr hr)

theorem capturing_applying {α : Type} {m : LexerM α} {l : Lexer} {start : Nat}
    (hm : Kept (Applying start) (m l)) {captured : Bool} {l' : Lexer}
    (h : capturing m l = .ok captured l') : l'.Applying start := by
  rw [capturing_eq] at h
  cases hr : m l with
  | ok a l₁ =>
    rw [hr] at h hm
    cases h
    exact hm
  | error stop l₁ =>
    rw [hr] at h hm
    cases stop with
    | exhausted => cases h
    | fault e =>
      by_cases hk : e.kind = .lexical
      · simp only [hk, ↓reduceIte, EStateM.Result.ok.injEq] at h
        have ha := hm hk
        rw [← h.2]
        exact ⟨ha.engine, errorQueued_plain hk ha.queue⟩
      · simp [hk] at h

theorem capturing_fails {α : Type} {m : LexerM α} {l l' : Lexer} {e : LexError}
    (h : capturing m l = .error (.fault e) l') : e.kind ≠ .lexical := by
  rw [capturing_eq] at h
  cases hr : m l with
  | ok a l₁ => simp [hr] at h
  | error stop l₁ =>
    rw [hr] at h
    cases stop with
    | exhausted => cases h
    | fault fault =>
      by_cases hk : fault.kind = .lexical
      · simp [hk] at h
      · simp only [hk, ↓reduceIte, EStateM.Result.error.injEq, Stop.fault.injEq] at h
        exact h.1 ▸ hk

theorem applyModeRule_gets_on {l : Lexer} (hops : l.operations = []) (hon : l.Onward)
    (hl : l.Applying l.engine.pos) (hlt : l.engine.pos < l.engine.input.length) (n : Nat) :
    match applyModeRule n l with
    | .ok _ l' => SameFrame l l' ∧ (Past l.engine.pos l' ∨ l'.Closed)
    | .error (.fault e) _ => e.kind ≠ .lexical
    | .error .exhausted _ => True := by
  rw [applyModeRule_eq]
  cases hname : l.options.ruleFor? l.modes.current with
  | none => simp [LexError.kind, LexError.plain, Cause.kind]
  | some name =>
    dsimp only
    cases hr : l.ruleset.rule? name with
    | none => simp [LexError.kind, LexError.plain, Cause.kind]
    | some r =>
      have hco : l.counted.operations = [] := hops
      have hrun : Kept (Applying l.engine.pos) (r.run (respond n) l.counted) :=
        Onward.run_applying (l := l.counted) hon hname hr hco ⟨hl.engine, hl.queue⟩ n
      have hcf := (counted_frame l).trans
        (capturing_frame (m := r.run (respond n)) (ruleRun_frame r n hco))
      dsimp only
      cases hcap : capturing (r.run (respond n)) l.counted with
      | error stop l₁ =>
        cases stop with
        | exhausted => trivial
        | fault e => exact capturing_fails hcap
      | ok captured l₁ =>
        rw [hcap] at hcf
        obtain ⟨l₂, hset, hpast⟩ := settle_past l.engine.toMark
          (capturing_applying hrun hcap) (hcf.text.input ▸ hlt) name captured
        have hsf := settle_frame name l.engine.toMark captured l₁
        rw [hset] at hsf
        simp only [hset]
        exact ⟨hcf.trans hsf, hpast⟩

theorem distance_lt_of_pos {l l' : Lexer} (hi : l'.engine.input = l.engine.input)
    (hp : l.engine.pos < l'.engine.pos) (hlt : l.engine.pos < l.engine.input.length) :
    l'.distance < l.distance := by
  unfold distance
  rw [hi]
  split <;> split <;> omega

/-- A step that stops at a line end has come further, or has found the separator. -/
theorem distance_lt_of_separator {l l' : Lexer} (hi : l'.engine.input = l.engine.input)
    (hp : l.engine.pos ≤ l'.engine.pos) (hlt : l'.engine.pos < l.engine.input.length)
    (hn : l'.AtSeparator) (ho : l.AtSeparator → l.engine.pos < l'.engine.pos) :
    l'.distance < l.distance := by
  by_cases he : l.engine.pos < l'.engine.pos
  · exact distance_lt_of_pos hi he (by omega)
  · have hno : ¬ l.AtSeparator := by
      intro h
      exact he (ho h)
    unfold distance
    rw [hi, if_pos hn, if_neg hno]
    omega

theorem Open.pos_lt_opened {l : Lexer} (h : l.Open) (hs : l.AtSeparator) :
    l.engine.pos < l.engine.opened.pos := by
  obtain ⟨hl, hsome⟩ := hs
  obtain ⟨n, hn⟩ := Option.isSome_iff_exists.mp hsome
  have := (Pattern.consumedAt?_within hn).1
  rw [Engine.opened_pos h.between, if_pos hl, hn, Option.getD_some]
  omega

theorem Open.body_applying {l : Lexer} (h : l.Open) {e : Engine}
    (hlay : Engine.LaidOut l.engine none e) : Applying e.pos { l with engine := e } :=
  ⟨hlay.advancing h.between h.idle, h.queue⟩

/-- How a driver step can end that was made in `l`: closer to the end of the text, with the end
of the stream queued, or with an error that is not lexical. -/
def GetsOn (l : Lexer) : EStateM.Result Stop Lexer Unit → Prop
  | .ok _ l' => l'.Open ∧ l'.distance < l.distance ∨ l'.Closed
  | .error (.fault e) _ => e.kind ≠ .lexical
  | .error .exhausted _ => True

variable {l : Lexer}

theorem Open.indentation_gets_on (hl : l.Open) {k : Nat}
    (hi : l.engine.opened.indentation? = some k) :
    GetsOn l (enqueueIndent { l with engine := l.engine.opened.indented k }) := by
  obtain ⟨-, hk, hin⟩ := Engine.indentation?_eq_some hi
  have hopen := Engine.pos_le_opened l.engine
  have hopened := (Engine.opened_text l.engine).2
  have hinput : (l.engine.opened.indented k).input = l.engine.input := hopened
  rw [hopened] at hin
  rw [enqueueIndent_eq rfl]
  dsimp only
  cases hq : l.queue.enqueue _ with
  | error fault => simp [GetsOn, Queue.enqueue_fails hq]
  | ok r =>
    refine .inl ⟨⟨hl.operations, hl.onward, .inr rfl, ?_, ?_⟩, ?_⟩
    · simp [Engine.Idle, Engine.indented, Engine.clearLexeme]
    · exact hl.queue.enqueue (by trivial) hq
    · refine distance_lt_of_pos hinput ?_ (by omega)
      change l.engine.pos < l.engine.opened.pos + k
      omega

/-- Nothing is consumed at a line end, but the next step consumes the separator. -/
theorem Open.lineEnd_gets_on (hl : l.Open) {k : Nat}
    (he : l.engine.opened.skipNoise.atEnd = false)
    (hs : l.engine.opened.skipNoise.separator? = some k) :
    GetsOn l (enqueueLineEnd { l with engine := l.engine.opened.skipNoise.lineEnded k }) := by
  have hready := Engine.opened_ready hl.between
  have hpos := Engine.pos_le_opened l.engine
  have hnoise := Engine.skipNoise_pos l.engine.opened
  have hatEnd : l.engine.opened.skipNoise.pos < l.engine.input.length := by
    simpa [Engine.atEnd] using he
  generalize hc : ({ l with engine := l.engine.opened.skipNoise.lineEnded k } : Lexer) = c
  have hce : c.engine = l.engine.opened.skipNoise.lineEnded k := by rw [← hc]
  obtain ⟨hcc, hci, hcr, hcp, hcl⟩ := Engine.lineEnded_text k l.engine.opened.skipNoise
  rw [← hce] at hcc hci hcr hcp hcl
  have hinput : c.engine.input = l.engine.input := by simp [hci]
  have hsep : c.AtSeparator := by
    refine ⟨hcl, ?_⟩
    rw [Engine.separator?, hcc, hci, hcp, ← Engine.separator?, hs]
    rfl
  have hdist : c.distance < l.distance := by
    apply distance_lt_of_separator hinput (by omega) (by omega) hsep
    intro h
    have := hl.pos_lt_opened h
    omega
  have hopen : c.Open := by
    subst hc
    constructor
    · exact hl.operations
    · exact hl.onward
    · left
      simp [hready]
    · intro _ _
      exact hcl
    · exact hl.queue
  rw [enqueueLineEnd_eq]
  split
  · cases hq : c.queue.pushAhead c.lineEndToken with
    | error fault => simp [GetsOn, Queue.pushAhead_fails hq]
    | ok r =>
      have hplain := hopen.queue.pushAhead (by trivial) hq
      exact .inl ⟨⟨hopen.operations, hopen.onward, hopen.between, hopen.idle, hplain⟩, hdist⟩
  · exact .inl ⟨hopen, hdist⟩

theorem Open.body_gets_on (hl : l.Open) (hi : l.engine.opened.indentation? = none)
    (he : l.engine.opened.skipNoise.atEnd = false)
    (hs : l.engine.opened.skipNoise.separator? = none) (n : Nat) :
    GetsOn l (applyModeRule n { l with engine := l.engine.opened.skipNoise }) := by
  have hpos := Engine.pos_le_opened l.engine
  have hnoise := Engine.skipNoise_pos l.engine.opened
  have hatEnd : l.engine.opened.skipNoise.pos < l.engine.input.length := by
    simpa [Engine.atEnd] using he
  have hinput : l.engine.opened.skipNoise.input = l.engine.input := by simp
  have honward := Onward.applyModeRule (l := { l with engine := l.engine.opened.skipNoise })
    hl.onward hl.operations n
  have hrule := applyModeRule_gets_on (l := { l with engine := l.engine.opened.skipNoise })
    hl.operations hl.onward (hl.body_applying (.body hi he hs)) (by rw [hinput]; exact hatEnd) n
  cases hr : applyModeRule n { l with engine := l.engine.opened.skipNoise } with
  | error stop l' =>
    rw [hr] at hrule
    cases stop <;> exact hrule
  | ok a l' =>
    rw [hr] at hrule honward
    obtain ⟨hframe, hpast | hclosed⟩ := hrule
    · refine .inl ⟨⟨hframe.operations.trans hl.operations, honward, hpast.between,
        hpast.idle, hpast.queue⟩, ?_⟩
      have hb : l.engine.opened.skipNoise.pos < l'.engine.pos := hpast.beyond
      exact distance_lt_of_pos (hframe.text.input.trans hinput) (by omega) (by omega)
    · exact .inr hclosed

theorem fillStep_gets_on (hl : l.Open) (n : Nat) : GetsOn l (fillStep n l) := by
  have hscan : l.engine.Scannable := hl.between.imp_right .inr
  obtain ⟨o, e, hlay⟩ := Engine.scanLayout_total hscan
  obtain ⟨-, hlaid⟩ := Engine.scanLayout_eq_ok_iff.mp hlay
  rw [fillStep_eq n hlay]
  cases hlaid with
  | indentation hi => exact hl.indentation_gets_on hi
  | endOfStream hi he =>
    refine .inr (endQueued_closed (.inl ?_) hl.queue)
    simp [Engine.ended, Engine.opened_ready hl.between]
  | lineEnd hi he hs => exact hl.lineEnd_gets_on he hs
  | body hi he hs => exact hl.body_gets_on hi he hs n

/-- What the driver comes to: it fills an empty queue step by step and delivers from it. -/
inductive Drives (l : Lexer) : Lexer → Prop where
  | refl : Drives l l
  | fill {a b : Lexer} {n : Nat} : Drives l a → a.queue.toList = [] →
      fillStep n a = .ok () b → Drives l b
  | deliver {a : Lexer} {entry : Entry} {q : Queue} : Drives l a →
      a.queue.dequeue = .ok (entry, q) → Drives l { a with queue := q }

def RulesReturn (l : Lexer) : Prop :=
  ∀ a, Drives l a → ∀ e, Engine.scanLayout a.engine = .ok none e →
    ∃ n, Returned (applyModeRule n { a with engine := e })

theorem Drives.trans {a b c : Lexer} (h : Drives a b) (k : Drives b c) : Drives a c := by
  induction k with
  | refl => exact h
  | fill _ hq hstep ih => exact .fill ih hq hstep
  | deliver _ hq ih => exact .deliver ih hq

theorem RulesReturn.of_drives {a b : Lexer} (h : RulesReturn a) (hd : Drives a b) :
    RulesReturn b := fun c hc => h c (hd.trans hc)

theorem Open.fillStep_returns (hl : l.Open) (h : RulesReturn l) :
    ∃ n, Returned (fillStep n l) := by
  have hscan : l.engine.Scannable := hl.between.imp_right .inr
  obtain ⟨o, e, hlay⟩ := Engine.scanLayout_total hscan
  obtain ⟨-, hlaid⟩ := Engine.scanLayout_eq_ok_iff.mp hlay
  simp only [fillStep_eq _ hlay]
  cases hlaid with
  | indentation => exact ⟨0, enqueueIndent_returned rfl⟩
  | endOfStream => exact ⟨0, returned_ok _ _⟩
  | lineEnd => exact ⟨0, enqueueLineEnd_returned _⟩
  | body => exact h l .refl _ hlay

def Filled (l : Lexer) : EStateM.Result Stop Lexer Unit → Prop
  | .ok _ l' => Drives l l' ∧ l'.queue.toList ≠ [] ∧
    (l' = l ∨ l'.Open ∧ l'.distance < l.distance ∨ l'.Closed)
  | .error (.fault e) _ => e.kind ≠ .lexical
  | .error .exhausted _ => False

theorem Filled.of_step {l l₁ : Lexer} (hd : Drives l l₁) (ho : l₁.Open)
    (hlt : l₁.distance < l.distance) {r : EStateM.Result Stop Lexer Unit} (h : Filled l₁ r) :
    Filled l r := by
  cases r with
  | error stop l' => cases stop <;> exact h
  | ok _ l' =>
    obtain ⟨hd', hq, hcase⟩ := h
    refine ⟨hd.trans hd', hq, ?_⟩
    rcases hcase with rfl | ⟨ho', hlt'⟩ | hc
    · exact .inr (.inl ⟨ho, hlt⟩)
    · exact .inr (.inl ⟨ho', Nat.lt_trans hlt' hlt⟩)
    · exact .inr (.inr hc)

theorem Closed.queue_ne_nil (h : l.Closed) : l.queue.toList ≠ [] := by
  obtain ⟨entries, token, hq, -⟩ := h.queue
  simp [hq]

/-- Filling the queue comes to an end, and more allowance does not change how. The induction is
on what is left of the text. -/
theorem Open.fillQueue_ends (hl : l.Open) (h : RulesReturn l) :
    ∃ N r, (∀ n ≥ N, ∀ rounds ≥ N, fillQueue n rounds l = r) ∧ Filled l r := by
  induction hd : l.distance using Nat.strongRecOn generalizing l with
  | ind d ih =>
  subst hd
  by_cases hq : l.queue.toList = []
  · obtain ⟨n₀, hret⟩ := hl.fillStep_returns h
    have hstep := fillStep_gets_on hl n₀
    have hsame : ∀ n ≥ n₀, fillStep n l = fillStep n₀ l := by
      intro n hn
      exact fillStep_extends hn l hret
    cases hr : fillStep n₀ l with
    | error stop l' =>
      rw [hr] at hstep hret
      refine ⟨n₀ + 1, .error stop l', ?_, ?_⟩
      · intro n hn rounds hrounds
        obtain ⟨k, rfl⟩ : ∃ k, rounds = k + 1 := ⟨rounds - 1, by omega⟩
        rw [fillQueue_empty hq, hsame n (by omega), hr]
      · cases stop with
        | fault e => exact hstep
        | exhausted => exact hret l' rfl
    | ok a l' =>
      rw [hr] at hstep
      have hdrive : Drives l l' := .fill .refl hq hr
      have hmore : ∃ N r, (∀ n ≥ N, ∀ rounds ≥ N, fillQueue n rounds l' = r) ∧ Filled l r := by
        rcases hstep with ⟨ho, hlt⟩ | hc
        · obtain ⟨N, r, hN, hf⟩ := ih _ hlt ho (h.of_drives hdrive) rfl
          exact ⟨N, r, hN, hf.of_step hdrive ho hlt⟩
        · refine ⟨1, .ok () l', ?_, hdrive, hc.queue_ne_nil, .inr (.inr hc)⟩
          intro n _ rounds hrounds
          exact fillQueue_full hc.queue_ne_nil n hrounds
      obtain ⟨N, r, hN, hf⟩ := hmore
      refine ⟨n₀ + N + 1, r, ?_, hf⟩
      intro n hn rounds hrounds
      obtain ⟨k, rfl⟩ : ∃ k, rounds = k + 1 := ⟨rounds - 1, by omega⟩
      rw [fillQueue_empty hq, hsame n (by omega), hr]
      exact hN n (by omega) k (by omega)
  · refine ⟨1, .ok () l, ?_, .refl, hq, .inl rfl⟩
    intro n _ rounds hrounds
    exact fillQueue_full hq n hrounds

def BreaksOff (N : Nat) (entries : List Entry) (l : Lexer) : Prop :=
  ∃ fault, fault.kind ≠ .lexical ∧
    ∀ n ≥ N, answers n (entries.length + 1) l = entries.map .ok ++ [.error (.fault fault)]

/-- The calls deliver the entries and then the end of the stream. All later ones are refused,
until there is new input, which is accepted. -/
def Finishes (N : Nat) (entries : List Entry) (l : Lexer) : Prop :=
  ∃ token refusal last, refusal.kind = .setup ∧
    (∀ text, ∃ l', setInput text last = .ok () l' ∧ l'.engine.recognition = .ready) ∧
    ∀ n ≥ N, ∀ later,
      answers n (entries.length + 1 + later) l = entries.map .ok ++
        .ok (.endOfStream token) :: List.replicate later (.error (.fault refusal)) ∧
      afterCalls n (entries.length + 1 + later) l = last

/-- With a large enough allowance, tokens and lexical errors are all that comes before the one
end of the stream, or before an error that is not lexical. -/
def Ends (l : Lexer) : Prop :=
  ∃ N entries, (∀ e ∈ entries, Entry.Plain e) ∧ (BreaksOff N entries l ∨ Finishes N entries l)

theorem Ends.deliver {l l₁ : Lexer} {e : Entry} (he : e.Plain)
    (h : ∀ n, nextToken n l = .ok e l₁) (hs : Ends l₁) : Ends l := by
  obtain ⟨N, entries, hplain, hs⟩ := hs
  refine ⟨N, e :: entries, List.forall_mem_cons.mpr ⟨he, hplain⟩, ?_⟩
  rcases hs with ⟨fault, hk, hN⟩ | ⟨token, refusal, last, hk, hset, hN⟩
  · refine .inl ⟨fault, hk, ?_⟩
    intro n hn
    simp only [List.length_cons, answers, h n, answer, Program.final_ok, hN n hn, List.map_cons,
      List.cons_append]
  · refine .inr ⟨token, refusal, last, hk, hset, ?_⟩
    intro n hn later
    obtain ⟨ha, hl⟩ := hN n hn later
    have hlen : (e :: entries).length + 1 + later = entries.length + 1 + later + 1 := by
      simp only [List.length_cons]
      omega
    rw [hlen]
    exact ⟨by simp [answers, h n, answer, ha], by simp [afterCalls, h n, hl]⟩

/-- What a call does to one lexer it may also do to another. -/
theorem Ends.of_same_call {l l' : Lexer} (N₀ : Nat)
    (h : ∀ n ≥ N₀, nextToken n l = nextToken n l') (hs : Ends l') : Ends l := by
  obtain ⟨N, entries, hplain, hs⟩ := hs
  have same : ∀ n ≥ N₀, ∀ k, answers n (k + 1) l = answers n (k + 1) l' ∧
      afterCalls n (k + 1) l = afterCalls n (k + 1) l' := by
    intro n hn k
    simp only [answers, afterCalls, h n hn, and_self]
  refine ⟨N₀ + N, entries, hplain, ?_⟩
  rcases hs with ⟨fault, hk, hN⟩ | ⟨token, refusal, last, hk, hset, hN⟩
  · refine .inl ⟨fault, hk, ?_⟩
    intro n hn
    rw [(same n (by omega) _).1, hN n (by omega)]
  · refine .inr ⟨token, refusal, last, hk, hset, ?_⟩
    intro n hn later
    rw [Nat.add_right_comm, (same n (by omega) _).1, (same n (by omega) _).2,
      Nat.add_right_comm]
    exact hN n (by omega) later

theorem refused_forever {l : Lexer} (hq : l.queue.toList = [])
    (hr : l.engine.recognition = .done ∨ l.engine.recognition = .aborted) (n k : Nat) :
    answers n k l = List.replicate k
        (.error (.fault (.plain (.notScanning l.engine.recognition)))) ∧
      afterCalls n k l = l := by
  have h := nextToken_refuses hq hr n
  induction k with
  | zero => exact ⟨rfl, rfl⟩
  | succ k ih =>
    simp only [answers, afterCalls, h, answer, Program.final_error, ih, List.replicate_succ,
      and_self]

theorem setInput_accepted {l : Lexer} (h : l.engine.recognition ≠ .tokenizing) (text : String) :
    ∃ l', setInput text l = .ok () l' ∧ l'.engine.recognition = .ready :=
  ⟨l.restarted text, by rw [setInput_eq, if_neg h], rfl⟩

theorem Closed.ends {l : Lexer} (hl : l.Closed) : Ends l := by
  obtain ⟨hr, entries, token, hq, hplain⟩ := hl
  have hw : l.engine.recognition ≠ .waitingForInput := by
    rcases hr with h | h <;> simp [h]
  induction entries generalizing l with
  | nil =>
    obtain ⟨q, -, hrest, hnext⟩ := nextToken_queued hw hq
    refine ⟨0, [], by simp, .inr ⟨token, .plain (.notScanning l.engine.recognition),
      { l with queue := q }, rfl, setInput_accepted ?_, fun n _ later => ?_⟩⟩
    · rcases hr with h | h <;> simp [h]
    · obtain ⟨ha, hl⟩ := refused_forever (l := { l with queue := q }) hrest hr n later
      rw [show ([] : List Entry).length + 1 + later = later + 1 by simp; omega]
      simp only [answers, afterCalls, hnext n, answer, Program.final_ok, ha, hl, List.map_nil,
        List.nil_append, and_self]
  | cons e entries ih =>
    obtain ⟨q, -, hrest, hnext⟩ := nextToken_queued hw hq
    rw [List.forall_mem_cons] at hplain
    exact Ends.deliver hplain.1 hnext (ih (l := { l with queue := q }) hr hrest hplain.2 hw)

/-- What is queued is delivered first; then the driver fills the queue again, closer to the end
of the text. -/
theorem Open.ends {l : Lexer} (hl : l.Open) (h : RulesReturn l) : Ends l := by
  induction hd : l.distance using Nat.strongRecOn generalizing l with
  | ind d ih =>
  subst hd
  have hw : l.engine.recognition ≠ .waitingForInput := by
    rcases hl.between with k | k <;> simp [k]
  induction hq : l.queue.toList generalizing l with
  | cons e rest ihqueue =>
    obtain ⟨q, hdeq, hrest, hnext⟩ := nextToken_queued hw hq
    obtain ⟨hplain, hqueue⟩ := hl.queue.dequeue hdeq
    refine Ends.deliver hplain hnext (ihqueue (l := { l with queue := q }) ?_ ?_ ih hw hrest)
    · exact ⟨hl.operations, hl.onward, hl.between, hl.idle, hqueue⟩
    · exact h.of_drives (.deliver .refl hdeq)
  | nil =>
    obtain ⟨N, r, hN, hfilled⟩ := hl.fillQueue_ends h
    have hcall := nextToken_fills hq hl.between
    cases r with
    | error stop l' =>
      cases stop with
      | exhausted => exact hfilled.elim
      | fault e =>
        refine ⟨N, [], by simp, .inl ⟨e, hfilled, ?_⟩⟩
        intro n hn
        simp [answers, hcall n, hN n hn n hn, answer]
    | ok _ l' =>
      obtain ⟨hdrive, hne, hcase⟩ := hfilled
      obtain ⟨e, rest, hq'⟩ := List.exists_cons_of_ne_nil hne
      have hends : l'.engine.recognition ≠ .waitingForInput ∧ Ends l' := by
        rcases hcase with rfl | ⟨ho, hlt⟩ | hc
        · exact absurd hq hne
        · refine ⟨?_, ih _ hlt ho (h.of_drives hdrive) rfl⟩
          rcases ho.between with k | k <;> simp [k]
        · refine ⟨?_, hc.ends⟩
          rcases hc.ended with k | k <;> simp [k]
      obtain ⟨q, hdeq, -, hnext⟩ := nextToken_queued hends.1 hq'
      refine Ends.of_same_call N ?_ hends.2
      intro n hn
      rw [hcall n, hN n hn n hn, hnext n]
      simp [onQueue_dequeue, hdeq]

theorem restarted_open {l : Lexer} {text : String} (hops : l.operations = [])
    (hon : (l.restarted text).Onward) : (l.restarted text).Open := by
  constructor
  · exact hops
  · exact hon
  · exact .inl rfl
  · intro _ hx
    exact absurd rfl hx
  · intro e he
    cases he

theorem Drives.frame {l l' : Lexer} (h : Drives l l') (hops : l.operations = []) :
    SameFrame l l' := by
  induction h with
  | refl => exact .refl l
  | @fill a b n _ _ hstep ih =>
    have hf := fillStep_frame n (ih.operations.trans hops)
    rw [hstep] at hf
    exact ih.trans hf
  | deliver _ hq ih =>
    exact ⟨ih.text, ih.ruleset, ih.options, ih.operations,
      (Queue.dequeue_eq_ok hq).2.trans ih.transforms⟩

theorem rulesReturn_of_flat {l : Lexer} (hops : l.operations = [])
    (hflat : ∀ r ∈ l.ruleset.rules, Ruleset.subruleNames r = []) : RulesReturn l := by
  intro a hd e _
  have hframe := hd.frame hops
  refine ⟨0, applyModeRule_returned ?_ ?_ 0⟩
  · exact hframe.operations.trans hops
  · intro name r _ hr
    apply hflat
    rw [← hframe.ruleset]
    exact Ruleset.mem_of_rule? hr

theorem Drives.inContained {l l' : Lexer} (h : Drives l l') (hops : l.operations = [])
    (hl : l.InContained) : l'.InContained := by
  induction h with
  | refl => exact hl
  | @fill a b n hd _ hstep ih =>
    have hb := ih.fillStep ((hd.frame hops).operations.trans hops) n
    rwa [hstep] at hb
  | deliver _ _ ih => exact ih

theorem rulesReturn_of_contained {l : Lexer} (hops : l.operations = []) (h : l.InContained) :
    RulesReturn l := by
  intro a hd e _
  refine ⟨0, applyModeRule_returned ?_ ?_ 0⟩
  · exact (hd.frame hops).operations.trans hops
  intro name r hname hr
  exact (hd.inContained hops h name r hname hr).flat

/-- The end of the stream. Of a lexer without registered operations whose rules never restore a
snapshot, given any text, and whose rules come to an end whenever they are applied: the calls
for the next entry deliver finitely many tokens and lexical errors, and then either an error
that is not lexical, or the end of the stream once; after it calls are refused with a setup
error until the lexer is given another text. -/
theorem stream_ends_once {l₀ l : Lexer} {text : String} (hops : l₀.operations = [])
    (hon : l₀.ruleset.NeverSends "restore_snapshot") (hset : setInput text l₀ = .ok () l)
    (hret : RulesReturn l) :
    ∃ N entries, (∀ e ∈ entries, Entry.Plain e) ∧
      (BreaksOff N entries l ∨ Finishes N entries l) := by
  rw [setInput_eq] at hset
  split at hset
  · cases hset
  · cases hset
    exact (restarted_open hops (.inl hon)).ends hret

def letterRules : Ruleset :=
  { types := some [(.symbol "A", "a letter")]
    rules := [{ name := "main", kind := .lookahead
                handlers := [⟨.char 'a', .enqueue (.symbol "A")⟩] }] }

def letterOptions : Options := { transforms := [⟨.symbol "A", fun _ => none⟩] }

/-- A lexer that drops all its tokens still comes to the end of a text with an unknown letter
and a line end. -/
theorem dropped_letters_end :
    ∃ l₀ l, new letterRules letterOptions = .ok l₀ ∧ setInput "ab\n a" l₀ = .ok () l ∧
      l₀.ruleset.NeverSends "restore_snapshot" ∧ RulesReturn l ∧
      ∃ N entries, (∀ e ∈ entries, Entry.Plain e) ∧
        (BreaksOff N entries l ∨ Finishes N entries l) := by
  have hnew : new letterRules letterOptions = .ok
      { engine := .new letterOptions.engineConfig, queue := ⟨[], [], letterOptions.transforms⟩,
        ruleset := letterRules, options := letterOptions } := rfl
  have hset := setInput_eq "ab\n a"
    { engine := .new letterOptions.engineConfig, queue := ⟨[], [], letterOptions.transforms⟩,
      ruleset := letterRules, options := letterOptions }
  have hret := rulesReturn_of_flat (l := Lexer.restarted "ab\n a"
    { engine := .new letterOptions.engineConfig, queue := ⟨[], [], letterOptions.transforms⟩,
      ruleset := letterRules, options := letterOptions }) rfl (by decide)
  exact ⟨_, _, hnew, hset, by decide, hret, stream_ends_once rfl (by decide) hset hret⟩

end Lexer
end TableLexer
