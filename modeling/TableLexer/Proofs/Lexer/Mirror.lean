import TableLexer.Proofs.Engine.Mirror
import TableLexer.Proofs.Lexer.Calls

/-!
# Lexers on the same text with two kinds of line ends

Lexers whose main rule only looks ahead and queues tokens do the same on a text without carriage
returns and on the same text with a carriage return before each line feed. The second is further
down by one line for each comment that runs to the end of its line.
-/
namespace TableLexer

/-- A rule that looks ahead for patterns within a line and queues tokens for them; where there is
none it queues a token or reports the character. -/
structure Rule.Flat (r : Rule) : Prop where
  kind : r.kind = .lookahead
  before : r.before = none ∨ ∃ type, r.before = some (.enqueue type)
  handlers : ∀ h ∈ r.handlers,
    h.pattern.Plain ∧ h.pattern.LookFree ∧ ∃ type, h.action = .enqueue type
  otherwise : r.otherwise = .unknownToken ∨ ∃ type, r.otherwise = .enqueue type

namespace Lexer

open Engine (Resting Pending Between Body Taken)

/-- Two states of one lexer that differ in the engine and the queue; what waits in the second queue
is what waits in the first, `k` lines further down. -/
inductive Mirrors (engines : Engine → Engine → Prop) (k : Nat) (l₀ : Lexer) :
    Lexer → Lexer → Prop where
  | intro {e e' : Engine} {q q' : Queue} (stats : Stats) (engine : engines e e')
      (queue : q.Below k q') :
      Mirrors engines k l₀ { l₀ with engine := e, queue := q, stats }
        { l₀ with engine := e', queue := q', stats }

/-- Two runs that succeed in states that correspond, or fail for reasons that do. After an error
that becomes an entry the states are to correspond as well. -/
inductive Alongside {α : Type} (k : Nat) (good : α → α → Lexer → Lexer → Prop)
    (bad : Lexer → Lexer → Prop) :
    EStateM.Result Stop Lexer α → EStateM.Result Stop Lexer α → Prop where
  | ok {a a' : α} {l l' : Lexer} (h : good a a' l l') : Alongside k good bad (.ok a l) (.ok a' l')
  | fault {e e' : LexError} {l l' : Lexer} (he : e.Below k e') (h : e.kind = .lexical → bad l l') :
      Alongside k good bad (.error (.fault e) l) (.error (.fault e') l')
  | exhausted {l l' : Lexer} : Alongside k good bad (.error .exhausted l) (.error .exhausted l')

variable {α β : Type} {engines : Engine → Engine → Prop} {k : Nat} {l₀ l l' : Lexer}
variable {good : α → α → Lexer → Lexer → Prop} {good' : β → β → Lexer → Lexer → Prop}
variable {bad : Lexer → Lexer → Prop}

theorem Mirrors.isEmpty (h : Mirrors engines k l₀ l l') :
    l'.queue.isEmpty = l.queue.isEmpty := by
  obtain ⟨-, -, hqueue⟩ := h
  exact hqueue.isEmpty

theorem Mirrors.widen {engines' : Engine → Engine → Prop} (h : Mirrors engines k l₀ l l')
    (hsub : ∀ e e', engines e e' → engines' e e') : Mirrors engines' k l₀ l l' := by
  obtain ⟨stats, hengine, hqueue⟩ := h
  exact .intro stats (hsub _ _ hengine) hqueue

theorem Alongside.bind {m m' : LexerM α} {f f' : α → LexerM β}
    (h : Alongside k good bad (m l) (m' l'))
    (hf : ∀ a a' l l', good a a' l l' → Alongside k good' bad (f a l) (f' a' l')) :
    Alongside k good' bad ((m >>= f) l) ((m' >>= f') l') := by
  rw [Program.bind_apply, Program.bind_apply]
  generalize m l = r, m' l' = r' at h
  cases h with
  | ok h => exact hf _ _ _ _ h
  | fault he h => exact .fault he h
  | exhausted => exact .exhausted

theorem Alongside.mono {good' : α → α → Lexer → Lexer → Prop} {bad' : Lexer → Lexer → Prop}
    {r r' : EStateM.Result Stop Lexer α} (h : Alongside k good bad r r')
    (hgood : ∀ a a' l l', good a a' l l' → good' a a' l l')
    (hbad : ∀ l l', bad l l' → bad' l l') : Alongside k good' bad' r r' := by
  cases h with
  | ok h => exact .ok (hgood _ _ _ _ h)
  | fault he h => exact .fault he fun hk => hbad _ _ (h hk)
  | exhausted => exact .exhausted

variable {text : List Char}

theorem scanToken_alongside (hr : '\r' ∉ text) {p : Pattern} (hp : p.Plain) (hfree : p.LookFree)
    (h : Mirrors (Body text k) k l₀ l l') :
    Alongside k (fun found found' l l' => found' = found ∧
      if found then Mirrors (Taken text k) k l₀ l l' else Mirrors (Body text k) k l₀ l l') bad
      (scanToken p l) (scanToken p l') := by
  obtain ⟨stats, hengine, hqueue⟩ := h
  obtain ⟨o, e₁, e₁', hs, hs', hcase⟩ := hengine.scan hr hp hfree
  have hscan : ∀ (l : Lexer) (e : Engine), Engine.scan p l.engine = .ok o e →
      scanToken p l = .ok (decide (o = some .token)) { l with engine := e } := by
    intro l e hs
    simp [scanToken, onEngine, hs]
  rw [hscan _ _ hs, hscan _ _ hs']
  rcases hcase with ⟨rfl, hbody⟩ | ⟨rfl, htaken⟩
  · exact .ok ⟨rfl, .intro stats hbody hqueue⟩
  · exact .ok ⟨rfl, .intro stats htaken hqueue⟩

theorem enqueueToken_alongside {engines' : Engine → Engine → Prop} (type : TokenType)
    (hmirrors : ∀ e e', engines e e' → Engine.Mirrors text k e e')
    (hgoing : ∀ e e', engines e e' → e.recognition = .ready ∨ e.recognition = .recognized)
    (hqueued : ∀ e e', engines e e' →
      engines' e.recognizedNow.clearLexeme e'.recognizedNow.clearLexeme)
    (h : Mirrors engines k l₀ l l') :
    Alongside k (fun _ _ => Mirrors engines' k l₀) bad (enqueueToken type l)
      (enqueueToken type l') := by
  obtain ⟨stats, hengine, hqueue⟩ := h
  rename_i e e' q q'
  have hm := hmirrors _ _ hengine
  have hterminal : e.recognition.isTerminal = false := by
    rcases hgoing _ _ hengine with hs | hs <;> rw [hs] <;> rfl
  have hnow := hm.recognizedNow
  have hentry : (Entry.token type (.ofLexeme e.recognizedNow.lexemeText
      e.recognizedNow.lexemePosition)).Below k (.token type
      (.ofLexeme e'.recognizedNow.lexemeText e'.recognizedNow.lexemePosition)) := by
    rw [Engine.lexemeText, Engine.lexemeText, hnow.lexeme]
    exact Entry.below_token hnow.lexemePosition type _ _
  have hresult := hqueue.enqueue hentry
  rw [enqueueToken_eq, enqueueToken_eq]
  simp only [hterminal, hm.recognition, Bool.false_eq_true, ↓reduceIte]
  generalize q.enqueue _ = r, q'.enqueue _ = r' at hresult
  cases hresult with
  | failed he hkind =>
    refine .fault he fun hk => ?_
    rw [hkind] at hk
    cases hk
  | done ha hq =>
    dsimp only
    rw [ha]
    exact .ok (.intro _ (hqueued _ _ hengine) hq)

structure Failed (text : List Char) (k : Nat) (e e' : Engine) : Prop extends
    Engine.Mirrors text k e e' where
  failed : e.recognition = .failed
  inside : e.lineState ≠ .atLineEnd

/-- The character a rule has no token for is reported in both texts. -/
theorem unknownToken_alongside {good : Reply → Reply → Lexer → Lexer → Prop} (hr : '\r' ∉ text)
    (h : Mirrors (Body text k) k l₀ l l') :
    Alongside k good (Mirrors (Failed text k) k l₀) (unknownToken l) (unknownToken l') := by
  obtain ⟨stats, hengine, hqueue⟩ := h
  rename_i e e' q q'
  obtain ⟨c, e₁, e₁', hn, hn', hm, htokenizing, hinside⟩ := hengine.nextChar hr
  have hempty : e.lexeme.isEmpty = true := by rw [hengine.lexeme_nil]; rfl
  have hempty' : e'.lexeme.isEmpty = true := by rw [hengine.lexeme]; exact hempty
  have hreport : ∀ (l : Lexer) (e₁ : Engine),
      (l.engine.recognition = .ready ∨ l.engine.recognition = .recognized) →
      l.engine.lexeme.isEmpty = true → Engine.nextChar l.engine = .ok (some c) e₁ →
      unknownToken l = .error (.fault (.located (.unknownToken e₁.lexemeText) e₁.lexemePosition))
        { l with engine := e₁.failedNow } := by
    intro l e₁ hs hempty hn
    rw [unknownToken_eq]
    rcases hs with hs | hs <;> simp [hs, hempty, hn]
  rw [hreport _ e₁ hengine.scannable hempty hn, hreport _ e₁' ?_ hempty' hn']
  · have hcause : e₁'.lexemeText = e₁.lexemeText := by
      rw [Engine.lexemeText, hm.lexeme, Engine.lexemeText]
    rw [hcause]
    refine .fault (LexError.below_located hm.lexemePosition _) fun _ => ?_
    refine .intro stats ⟨hm.failedNow, ?_, ?_⟩ hqueue
    · simp [Engine.failedNow, htokenizing]
    · simpa [Engine.failedNow, htokenizing] using hinside
  · rw [show e'.recognition = e.recognition from hengine.recognition]
    exact hengine.scannable

theorem firstScanned_alongside (hr : '\r' ∉ text) {handlers : List Handler}
    (hflat : ∀ h ∈ handlers, h.pattern.Plain ∧ h.pattern.LookFree)
    (h : Mirrors (Body text k) k l₀ l l') :
    Alongside k (fun found found' l l' => found' = found ∧ (∀ handler ∈ found, handler ∈ handlers) ∧
      if found.isSome then Mirrors (Taken text k) k l₀ l l'
      else Mirrors (Body text k) k l₀ l l') bad
      (Rule.firstScanned handlers l) (Rule.firstScanned handlers l') := by
  induction handlers generalizing l l' with
  | nil => exact .ok ⟨rfl, by simp, h⟩
  | cons handler rest ih =>
    rw [List.forall_mem_cons] at hflat
    refine (scanToken_alongside hr hflat.1.1 hflat.1.2 h).bind ?_
    rintro _ found l l' ⟨rfl, hl⟩
    cases found with
    | true => exact .ok ⟨rfl, by simp, hl⟩
    | false =>
      refine (ih hflat.2 hl).mono ?_ fun _ _ => id
      rintro _ found l l' ⟨rfl, hmem, hl⟩
      exact ⟨rfl, fun handler hh => List.mem_cons_of_mem _ (hmem handler hh), hl⟩

/-- A flat rule does the same in both texts. -/
theorem ruleRun_alongside (hr : '\r' ∉ text) (hops : l₀.operations = []) {r : Rule} (hflat : r.Flat)
    (call : Call → LexerM Reply) (h : Mirrors (Body text k) k l₀ l l') :
    Alongside k (fun _ _ => Mirrors (Resting text k) k l₀) (Mirrors (Failed text k) k l₀)
      (r.run call l) (r.run call l') := by
  have hbody : ∀ (type : TokenType) {l l' : Lexer}, Mirrors (Body text k) k l₀ l l' →
      Alongside k (fun _ _ => Mirrors (Body text k) k l₀) (Mirrors (Failed text k) k l₀)
        (enqueueToken type l) (enqueueToken type l') := fun type _ _ h =>
    enqueueToken_alongside type (fun _ _ h => h.toMirrors) (fun _ _ h => h.scannable)
      (fun _ _ h => h.queued) h
  have htaken : ∀ (type : TokenType) {l l' : Lexer}, Mirrors (Taken text k) k l₀ l l' →
      Alongside k (fun _ _ => Mirrors (Resting text k) k l₀) (Mirrors (Failed text k) k l₀)
        (enqueueToken type l) (enqueueToken type l') := fun type _ _ h =>
    enqueueToken_alongside type (fun _ _ h => h.toMirrors) (fun _ _ h => .inr h.recognized)
      (fun _ _ h => h.toMirrors.queued (.inr h.recognized) h.inside) h
  unfold Rule.run
  have hbefore : Alongside k (fun _ _ => Mirrors (Body text k) k l₀)
      (Mirrors (Failed text k) k l₀) (Action.runOption call r.before l)
      (Action.runOption call r.before l') := by
    rcases hflat.before with hb | ⟨type, hb⟩
    · rw [hb]
      exact .ok h
    · rw [hb]
      exact hbody type h
  refine hbefore.bind ?_
  intro _ _ l l' h
  rw [Rule.dispatch, hflat.kind]
  have hpatterns : ∀ h ∈ r.handlers, h.pattern.Plain ∧ h.pattern.LookFree := by
    intro h hh
    obtain ⟨hplain, hfree, -⟩ := hflat.handlers h hh
    exact ⟨hplain, hfree⟩
  refine (firstScanned_alongside hr hpatterns h).bind ?_
  rintro _ found l l' ⟨rfl, hmem, hl⟩
  cases found with
  | some handler =>
    obtain ⟨-, -, type, haction⟩ := hflat.handlers handler (hmem handler rfl)
    dsimp only
    rw [haction]
    exact htaken type hl
  | none =>
    rcases hflat.otherwise with ho | ⟨type, ho⟩
    · have hsend : ∀ {l l' : Lexer}, Mirrors (Body text k) k l₀ l l' →
          r.otherwise.run call l = unknownToken l ∧ r.otherwise.run call l' = unknownToken l' := by
        rintro _ _ ⟨stats, -, -⟩
        rw [ho]
        constructor <;>
          simp [Action.unknownToken, Action.run, sendMessage, operation?, hops, builtIn]
      dsimp only
      rw [(hsend hl).1, (hsend hl).2]
      exact unknownToken_alongside hr hl
    · dsimp only
      rw [ho]
      refine (hbody type hl).mono (fun _ _ _ _ h => ?_) fun _ _ => id
      exact h.widen fun _ _ => Body.toResting

structure FlatMode (l : Lexer) : Prop where
  operations : l.operations = []
  rule : ∀ name r, l.options.ruleFor? l.modes.current = some name →
    l.ruleset.rule? name = some r → r.Flat
  silent : l.options.eolTokens = false

theorem Mirrors.errorQueued (h : Mirrors engines k l₀ l l') {e e' : LexError} (he : e.Below k e') :
    Mirrors engines k l₀ (l.errorQueued e) (l'.errorQueued e') := by
  have hentry : (Entry.error e).Below k (.error e') := congrArg Entry.error he
  obtain ⟨stats, hengine, hqueue⟩ := h
  exact .intro _ hengine (hqueue.joined hentry)

theorem Mirrors.endQueued (h : Mirrors engines k l₀ l l')
    (hmark : ∀ e e', engines e e' → e.toMark.position.Below k e'.toMark.position) :
    Mirrors engines k l₀ l.endQueued l'.endQueued := by
  obtain ⟨stats, hengine, hqueue⟩ := h
  exact .intro stats hengine (hqueue.joined (Entry.below_endOfStream (hmark _ _ hengine)))

/-- A lexical error is captured in both texts or in none. -/
theorem capturing_alongside {α : Type} {m m' : LexerM α}
    (h : Alongside k (fun _ _ => Mirrors engines k l₀) (Mirrors (Failed text k) k l₀) (m l)
      (m' l')) :
    Alongside k (fun captured captured' l l' => captured' = captured ∧
      if captured then Mirrors (Failed text k) k l₀ l l' else Mirrors engines k l₀ l l')
      (fun _ _ => True) (capturing m l) (capturing m' l') := by
  rw [capturing_eq, capturing_eq]
  generalize m l = r, m' l' = r' at h
  cases h with
  | ok h => exact .ok ⟨rfl, h⟩
  | exhausted => exact .exhausted
  | fault he h =>
    dsimp only
    rw [he.kind]
    split
    · next hk => exact .ok ⟨rfl, (h hk).errorQueued he⟩
    · exact .fault he fun _ => trivial

theorem skipChar_alongside (hr : '\r' ∉ text) (h : Mirrors (Body text k) k l₀ l l') :
    Alongside k (fun _ _ => Mirrors (Resting text k) k l₀) (fun _ _ => True) (skipChar l)
      (skipChar l') := by
  obtain ⟨stats, hengine, hqueue⟩ := h
  obtain ⟨c, e₁, e₁', hn, hn', hm, htokenizing, hinside⟩ := hengine.nextChar hr
  rw [skipChar_eq, skipChar_eq]
  dsimp only
  rw [hn, hn']
  exact .ok (.intro stats (hm.restedResting (.inl htokenizing) hinside) hqueue)

/-- Within a line, a rule got on if the scan position did. -/
theorem stalled_inside {start now : Mark} (h : now.lineState ≠ .atLineEnd) :
    stalled start now = decide (now.pos = start.pos) := by
  rw [Bool.eq_iff_iff]
  simp [stalled, h]

theorem settle_going (rule : String) (start : Mark) {l : Lexer}
    (h : l.engine.recognition = .ready ∨ l.engine.recognition = .recognized) :
    settle rule start false l =
      if stalled start l.engine.toMark then
        skipChar (l.errorQueued (.located (.stalledRule rule) l.engine.currentPosition))
      else .ok () l := by
  rw [settle_eq]
  rcases h with h | h <;> rw [h] <;> rfl

/-- After a rule the engine gets back to where the next rule can be applied, in both texts. -/
theorem settle_alongside (hr : '\r' ∉ text) (rule : String) {e₀ e₀' : Engine}
    (h₀ : Body text k e₀ e₀') {captured : Bool}
    (h : if captured then Mirrors (Failed text k) k l₀ l l'
      else Mirrors (Resting text k) k l₀ l l') :
    Alongside k (fun _ _ => Mirrors (Resting text k) k l₀) (fun _ _ => True)
      (settle rule e₀.toMark captured l) (settle rule e₀'.toMark captured l') := by
  cases captured with
  | true =>
    obtain ⟨stats, hengine, hqueue⟩ := h
    have hrested := hengine.toMirrors.restedResting (.inr hengine.failed) hengine.inside
    rw [settle_eq, settle_eq]
    dsimp only
    rw [hengine.recognition, hengine.failed]
    exact .ok (.intro stats hrested hqueue)
  | false =>
    obtain ⟨stats, hengine, hqueue⟩ := h
    rename_i e e' q q'
    have hgoing' : e'.recognition = .ready ∨ e'.recognition = .recognized := by
      rw [hengine.recognition]
      exact hengine.scannable
    have hinside' : e'.lineState ≠ .atLineEnd := by
      rw [hengine.mark.lineState]
      exact hengine.inside
    have hsame : e'.pos = e₀'.pos ↔ e.pos = e₀.pos := by
      rw [hengine.mark.pos, h₀.mark.pos]
      exact Text.crlfPlace_eq_iff hengine.mark.within h₀.mark.within
    rw [settle_going rule _ hengine.scannable, settle_going rule _ hgoing']
    dsimp only
    rw [stalled_inside hengine.inside, stalled_inside hinside', decide_eq_decide.mpr hsame]
    by_cases hpos : e.pos = e₀.pos
    · have hbody : Body text k e e' := ⟨hengine, hpos ▸ h₀.noiseless, hpos ▸ h₀.char⟩
      have hstalled : (LexError.located (.stalledRule rule) e.currentPosition).Below k
          (.located (.stalledRule rule) e'.currentPosition) :=
        LexError.below_located hengine.mark.position _
      rw [decide_eq_true hpos, if_pos rfl, if_pos rfl]
      exact skipChar_alongside hr ((Mirrors.intro stats hbody hqueue).errorQueued hstalled)
    · rw [decide_eq_false hpos, if_neg Bool.false_ne_true, if_neg Bool.false_ne_true]
      exact .ok (.intro stats hengine hqueue)

theorem applyModeRule_runs (n : Nat) {name : String} {r : Rule}
    (hname : l.options.ruleFor? l.modes.current = some name)
    (hrule : l.ruleset.rule? name = some r) :
    applyModeRule n l =
      (capturing (r.run (respond n)) >>= settle name l.engine.toMark) l.counted := by
  rw [applyModeRule_eq, hname]
  dsimp only
  rw [hrule, Program.bind_apply]
  dsimp only
  cases capturing (r.run (respond n)) l.counted <;> rfl

theorem applyModeRule_alongside (hr : '\r' ∉ text) (hflat : l₀.FlatMode) (n : Nat)
    (h : Mirrors (Body text k) k l₀ l l') :
    Alongside k (fun _ _ => Mirrors (Resting text k) k l₀) (fun _ _ => True)
      (applyModeRule n l) (applyModeRule n l') := by
  obtain ⟨stats, hengine, hqueue⟩ := h
  rename_i e e' q q'
  cases hname : l₀.options.ruleFor? l₀.modes.current with
  | none =>
    rw [applyModeRule_eq, applyModeRule_eq]
    dsimp only
    rw [hname]
    exact .fault rfl fun _ => trivial
  | some name =>
    cases hrule : l₀.ruleset.rule? name with
    | none =>
      rw [applyModeRule_eq, applyModeRule_eq]
      dsimp only
      rw [hname]
      dsimp only
      rw [hrule]
      exact .fault rfl fun _ => trivial
    | some r =>
      rw [applyModeRule_runs (l := { l₀ with engine := e, queue := q, stats }) n hname hrule,
        applyModeRule_runs (l := { l₀ with engine := e', queue := q', stats }) n hname hrule]
      have hrun := ruleRun_alongside hr hflat.operations (hflat.rule name r hname hrule)
        (respond n) (.intro { stats with rulesApplied := stats.rulesApplied + 1 } hengine hqueue)
      refine (capturing_alongside hrun).bind ?_
      rintro _ captured l l' ⟨rfl, h⟩
      exact settle_alongside hr name hengine h

structure Ended (text : List Char) (k : Nat) (e e' : Engine) : Prop extends
    Engine.Mirrors text k e e' where
  done : e.recognition = .done

def Idle (text : List Char) (k : Nat) (e e' : Engine) : Prop :=
  Between text k e e' ∨ Ended text k e e'

/-- A step of the driver does the same in both texts. The second is further down afterwards if the
step skipped a comment to the end of a line. -/
theorem fillStep_alongside (hr : '\r' ∉ text) (hflat : l₀.FlatMode) (n : Nat)
    (h : Mirrors (Between text k) k l₀ l l') (hempty : l.queue.isEmpty = true) :
    Alongside (k + l.engine.comments)
      (fun _ _ l₁ l₁' =>
        Mirrors (Between text (k + l.engine.comments)) (k + l.engine.comments) l₀ l₁ l₁' ∨
          l₁.queue.isEmpty = false ∧
            Mirrors (Ended text (k + l.engine.comments)) (k + l.engine.comments) l₀ l₁ l₁')
      (fun _ _ => True) (fillStep n l) (fillStep n l') := by
  obtain ⟨stats, hengine, hqueue⟩ := h
  rename_i e e' q q'
  obtain ⟨o, e₁, e₁', hs, hs', hlayout⟩ := hengine.scanLayout hr
  rw [fillStep_eq n hs, fillStep_eq n hs']
  dsimp only at hempty hlayout ⊢
  generalize k + e.comments = j at hlayout ⊢
  have hqueue := hqueue.emptied hempty j
  cases hlayout with
  | ended hm hd =>
    have hended : Mirrors (Ended text j) j l₀ _ _ := .intro stats ⟨hm, hd⟩ hqueue
    exact .ok (.inr ⟨by simp [Queue.isEmpty],
      hended.endQueued fun _ _ h => h.mark.position⟩)
  | pending hp =>
    have hsilent : ∀ (e : Engine) (q : Queue),
        enqueueLineEnd { l₀ with engine := e, queue := q, stats } =
          .ok () { l₀ with engine := e, queue := q, stats } := by
      intro e q
      rw [enqueueLineEnd_eq]
      exact if_neg (by simp [hflat.silent])
    dsimp only [afterLayout]
    rw [hsilent e₁ q, hsilent e₁' q']
    exact .ok (.inl (.intro stats (.inr hp) hqueue))
  | body hb =>
    refine (applyModeRule_alongside hr hflat n (.intro stats hb hqueue)).mono ?_ fun _ _ => id
    exact fun _ _ _ _ h => .inl (h.widen fun _ _ => .inl)

end Lexer
end TableLexer
