import TableLexer.Proofs.Engine.Progress
import TableLexer.Proofs.Lexer.Frame

/-!
# Handlers of a look-ahead rule

A look-ahead rule should deal with the layout once and then try its handlers against one text.
It scans for each handler instead, and each scan deals with the layout again. The two come to
the same exactly where a second layout step would change nothing; a rule with one handler is
never affected.
-/
namespace TableLexer

namespace Engine

/-- A second layout step after one that reported `o` would find the same and move nothing. -/
def Steady (o : Option Outcome) (e : Engine) : Prop :=
  e.config.noise.consumedAt? e.input e.pos = none ∧
    (o = none ∧ e.indentation? = none ∨ o = some .lineEnd ∧ e.recognition = .tokenizing)

instance (o : Option Outcome) (e : Engine) : Decidable (Steady o e) :=
  inferInstanceAs (Decidable (_ ∧ (_ ∧ _ ∨ _ ∧ _)))

theorem skipNoise_eq_self {e : Engine} (h : e.config.noise.consumedAt? e.input e.pos = none) :
    e.skipNoise = e := by
  simp [skipNoise, h]

/-- Nothing is let go of or begun where no token waits and no separator is pending. -/
theorem opened_eq_self {e : Engine} (hu : e.Unclaimed)
    (hl : e.recognition = .ready → e.lineState ≠ .atLineEnd) : e.opened = e := by
  have hr : e.released = e := by
    rcases hu with h | h <;> simp [released, h]
  have hb : e.lineBegun = e := by
    unfold lineBegun
    split
    · next hc => exact absurd hc.1 (hl hc.2)
    · rfl
  rw [opened, hr, hb]

theorem LaidOut.opened_eq_self {e e' : Engine} (h : LaidOut e none e') (hs : e.Scannable) :
    e'.opened = e' := by
  apply Engine.opened_eq_self (h.unclaimed hs)
  intro hr
  cases h
  have hr : e.opened.recognition = .ready := by simpa using hr
  simpa using opened_lineState hr

theorem ended_not_scannable (e : Engine) : ¬ e.ended.Scannable := by
  unfold Scannable ended
  dsimp only
  split <;> simp

theorem lineEnded_eq_self {e : Engine} (hr : e.recognition = .tokenizing)
    (hl : e.lineState = .atLineEnd) (n : Nat) : e.lineEnded n = e := by
  obtain ⟨⟨⟨pos, line, lineStart, lineState⟩, lexeme, anchor, recognition⟩, config, input,
    snapshots⟩ := e
  cases hr
  cases hl
  rfl

theorem Steady.scanLayout_again {e e' : Engine} {o : Option Outcome} (hs : e.Scannable)
    (hl : LaidOut e o e') (h : Steady o e') : scanLayout e' = .ok o e' := by
  obtain ⟨hn, ⟨rfl, hi⟩ | ⟨rfl, hr⟩⟩ := h
  · have ho := hl.opened_eq_self hs
    have hu : e'.Scannable := (hl.unclaimed hs).imp_right .inl
    cases hl with
    | body _ he hp =>
      rw [scanLayout_eq hu, ho, hi, skipNoise_eq_self hn]
      simp [he, hp]
  · obtain ⟨n, hend, hsep, hline⟩ : ∃ n, e'.atEnd = false ∧ e'.separator? = some n ∧
        e'.lineState = .atLineEnd := by
      cases hl with
      | @lineEnd n _ he hp =>
        exact ⟨n, by simpa [atEnd] using he, by simpa [separator?] using hp, by simp⟩
    have ho : e'.opened = e' :=
      Engine.opened_eq_self (.inr hr) fun k => absurd (hr.symm.trans k) (by decide)
    have hi : e'.indentation? = none := by simp [indentation?, hline]
    rw [scanLayout_eq (.inr (.inl hr)), ho, hi, skipNoise_eq_self hn]
    simp [hend, hsep, lineEnded_eq_self hr hline]

theorem LaidOut.reported {e e' : Engine} {o : Option Outcome} (h : LaidOut e o e')
    (hu : e'.Unclaimed) :
    o = none ∧ e'.separator? = none ∨ o = some .lineEnd ∧ e'.separator?.isSome := by
  cases h with
  | indentation =>
    have hr : RecognitionState.recognized = .ready ∨ RecognitionState.recognized = .tokenizing := hu
    simp at hr
  | endOfStream =>
    have hs : e.opened.skipNoise.ended.Scannable := hu.imp_right .inl
    exact absurd hs (ended_not_scannable _)
  | lineEnd _ _ hp => exact .inr ⟨rfl, by simpa [separator?] using Option.isSome_of_eq_some hp⟩
  | body _ _ hp => exact .inl ⟨rfl, hp⟩

/-- If opening the text ahead and skipping noise moved nothing, there was no noise. -/
theorem noise_none_of_pos {e : Engine} (h : e.opened.skipNoise.pos = e.pos) :
    e.opened.pos = e.pos ∧ e.config.noise.consumedAt? e.input e.pos = none := by
  have hopen := pos_le_opened e
  have hnoise := skipNoise_pos e.opened
  have hpos : e.opened.pos = e.pos := by omega
  refine ⟨hpos, ?_⟩
  have hc : e.opened.config = e.config := by simp [opened]
  have hi : e.opened.input = e.input := by simp [opened]
  rw [hc, hi, hpos] at hnoise
  cases hn : e.config.noise.consumedAt? e.input e.pos with
  | none => rfl
  | some n =>
    have := (Pattern.consumedAt?_within hn).1
    rw [hn, Option.getD_some] at hnoise
    omega

/-- What a layout step leaves as it is: no noise is ahead, and either no indentation or a
separator in the middle of a token. -/
theorem LaidOut.fixed {e e' : Engine} {o : Option Outcome} (h : LaidOut e o e')
    (hs : e.Scannable) (hfix : e' = e) :
    e.Unclaimed ∧ e.config.noise.consumedAt? e.input e.pos = none ∧
      (e.separator? = none → e.indentation? = none) ∧
      (e.separator?.isSome → e.recognition = .tokenizing) := by
  have hu := opened_unclaimed hs
  have hpos := congrArg (fun x : Engine => x.pos) hfix
  have hrec := congrArg (fun x : Engine => x.recognition) hfix
  cases h with
  | @indentation n hi =>
    have hn := (indentation?_eq_some hi).2.1
    have hopen := pos_le_opened e
    have hpos : e.opened.pos + n = e.pos := hpos
    omega
  | endOfStream => exact absurd (hfix ▸ hs) (ended_not_scannable _)
  | @lineEnd n hi he hp =>
    obtain ⟨hsame, hnoise⟩ := noise_none_of_pos (by simpa using hpos)
    have hsep : e.separator? = some n := by
      rw [← hfix]
      simpa [separator?] using hp
    have hline : e.lineState = .atLineEnd := by
      rw [← hfix]
      simp
    have hrec : e.opened.recognition = e.recognition := by simpa using hrec
    have hue : e.Unclaimed := by simpa [Unclaimed, hrec] using hu
    refine ⟨hue, hnoise, by simp [hsep], ?_⟩
    intro _
    apply hue.resolve_left
    intro hready
    -- between tokens the separator would have been consumed
    have hopen := opened_pos (e := e) (.inl hready)
    have hn := (Pattern.consumedAt?_within hsep).1
    rw [hline, if_pos rfl, hsep, Option.getD_some] at hopen
    omega
  | body hi he hp =>
    obtain ⟨hsame, hnoise⟩ := noise_none_of_pos hpos
    have hrec : e.opened.recognition = e.recognition := by simpa using hrec
    have hue : e.Unclaimed := by simpa [Unclaimed, hrec] using hu
    have hopened : e.opened = e := by
      have hn : e.opened.config.noise.consumedAt? e.opened.input e.opened.pos = none := by
        rw [hsame]
        simpa [opened] using hnoise
      rw [skipNoise_eq_self hn] at hfix
      exact hfix
    rw [hfix] at hp
    rw [hopened] at hi
    exact ⟨hue, hnoise, fun _ => hi, by simp [hp]⟩

/-- A second layout step changes nothing exactly in steady states. -/
theorem scanLayout_again_iff {e e' : Engine} {o : Option Outcome} (h : scanLayout e = .ok o e') :
    Steady o e' ↔ ∃ o', scanLayout e' = .ok o' e' := by
  obtain ⟨hs, hl⟩ := scanLayout_eq_ok_iff.mp h
  constructor
  · intro hst
    exact ⟨o, hst.scanLayout_again hs hl⟩
  · rintro ⟨o', h'⟩
    obtain ⟨hs', hl'⟩ := scanLayout_eq_ok_iff.mp h'
    obtain ⟨hu, hn, hbody, hend⟩ := hl'.fixed hs' rfl
    refine ⟨hn, ?_⟩
    rcases hl.reported hu with ⟨ho, hsep⟩ | ⟨ho, hsep⟩
    · exact .inl ⟨ho, hbody hsep⟩
    · exact .inr ⟨ho, hend hsep⟩

end Engine

namespace Rule

open Lexer

def matchingHandler? (handlers : List Handler) (e : Engine) : Option Handler :=
  handlers.find? fun h => (h.pattern.matchAt? e.input e.pos).isSome

def takeMatching (handlers : List Handler) : LexerM (Option Handler) := do
  match matchingHandler? handlers (← get).engine with
  | none => return none
  | some h =>
    let _ ← onEngine (Engine.tryPattern h.pattern)
    return some h

/-- Deals with the layout once. What is reported keeps the handlers from being tried; otherwise
the first that matches where the layout step stopped takes its match. -/
def dispatchOnce (handlers : List Handler) : LexerM (Option Handler) := do
  match ← onEngine Engine.scanLayout with
  | some _ => return none
  | none => takeMatching handlers

/-- A look-ahead rule that tries its handlers against one text: the handler found after one
layout step acts, or else the default action does. -/
def lookedAhead (call : Call → LexerM Reply) (r : Rule) : LexerM Reply := do
  (r.chosen (← dispatchOnce r.handlers)).run call

variable {l : Lexer} {e : Engine} {o : Option Outcome}

theorem scanToken_reported {x : Outcome} (p : Pattern)
    (h : Engine.scanLayout l.engine = .ok (some x) e) :
    scanToken p l = .ok false { l with engine := e } := by
  have hx : x ≠ .token := by
    rintro rfl
    cases (Engine.scanLayout_eq_ok_iff.mp h).2
  simp [scanToken, onEngine, Engine.scan_eq p h, hx]

theorem scanToken_missed {p : Pattern} (h : Engine.scanLayout l.engine = .ok none e)
    (hm : p.matchAt? e.input e.pos = none) :
    scanToken p l = .ok false { l with engine := e } := by
  obtain ⟨hs, hl⟩ := Engine.scanLayout_eq_ok_iff.mp h
  simp [scanToken, onEngine, Engine.scan_eq p h, Engine.tryPattern_eq p (hl.unclaimed hs), hm]

theorem scanToken_matched {p : Pattern} (h : Engine.scanLayout l.engine = .ok none e)
    (hm : (p.matchAt? e.input e.pos).isSome) :
    scanToken p l = (do let _ ← onEngine (Engine.tryPattern p); return true : LexerM Bool)
      { l with engine := e } := by
  obtain ⟨hs, hl⟩ := Engine.scanLayout_eq_ok_iff.mp h
  obtain ⟨n, hn⟩ := Option.isSome_iff_exists.mp hm
  simp only [scanToken, onEngine, Program.bind_apply, Engine.scan_eq p h,
    Engine.tryPattern_eq p (hl.unclaimed hs), hn]
  by_cases hline : e.lineState = .atLineEnd <;> simp [hline]

theorem firstScanned_reported {x : Outcome} (h : Engine.scanLayout l.engine = .ok (some x) e)
    {handlers : List Handler} (hne : handlers ≠ [])
    (hst : handlers.length = 1 ∨ Engine.scanLayout e = .ok (some x) e) :
    firstScanned handlers l = .ok none { l with engine := e } := by
  induction handlers generalizing l with
  | nil => exact absurd rfl hne
  | cons first rest ih =>
    rw [firstScanned, Program.bind_apply, scanToken_reported first.pattern h]
    cases rest with
    | nil => rfl
    | cons second others =>
      have hst := hst.resolve_left (by simp)
      exact ih (l := { l with engine := e }) hst (by simp) (.inr hst)

theorem firstScanned_tried (h : Engine.scanLayout l.engine = .ok none e)
    {handlers : List Handler} (hne : handlers ≠ [])
    (hst : handlers.length = 1 ∨ Engine.scanLayout e = .ok none e) :
    firstScanned handlers l = takeMatching handlers { l with engine := e } := by
  induction handlers generalizing l with
  | nil => exact absurd rfl hne
  | cons first rest ih =>
    rw [firstScanned, Program.bind_apply]
    cases hm : first.pattern.matchAt? e.input e.pos with
    | some n =>
      rw [scanToken_matched h (by simp [hm])]
      simp only [takeMatching, matchingHandler?, hm, Option.isSome_some,
        List.find?_cons_of_pos, Program.bind_apply, Program.get_apply]
      cases onEngine (Engine.tryPattern first.pattern) { l with engine := e } <;> rfl
    | none =>
      rw [scanToken_missed h hm]
      have hskip : takeMatching (first :: rest) { l with engine := e } =
          takeMatching rest { l with engine := e } := by
        simp [takeMatching, matchingHandler?, hm]
      rw [hskip]
      cases rest with
      | nil => rfl
      | cons second others =>
        have hst := hst.resolve_left (by simp)
        exact ih (l := { l with engine := e }) hst (by simp) (.inr hst)

/-- Where the layout is steady, or there is only one handler, dealing with the layout for every
handler comes to the same as dealing with it once. -/
theorem firstScanned_eq_dispatchOnce (h : Engine.scanLayout l.engine = .ok o e)
    {handlers : List Handler} (hne : handlers ≠ [])
    (hst : handlers.length = 1 ∨ Engine.scanLayout e = .ok o e) :
    firstScanned handlers l = dispatchOnce handlers l := by
  simp only [dispatchOnce, Program.bind_apply, onEngine, h]
  cases o with
  | some x => exact firstScanned_reported h hne hst
  | none => exact firstScanned_tried h hne hst

theorem run_lookahead {r : Rule} (hk : r.kind = .lookahead) (hb : r.before = none)
    (call : Call → LexerM Reply) :
    r.run call = firstScanned r.handlers >>= fun found => (r.chosen found).run call := by
  funext l
  simp only [run, hb, Action.runOption, Program.bind_apply, Program.pure_apply, dispatch, hk]
  cases firstScanned r.handlers l with
  | error stop l' => rfl
  | ok found l' => cases found <;> rfl

theorem run_eq_lookedAhead {r : Rule} (hk : r.kind = .lookahead) (hb : r.before = none)
    (hne : r.handlers ≠ []) (h : Engine.scanLayout l.engine = .ok o e)
    (hst : r.handlers.length = 1 ∨ Engine.scanLayout e = .ok o e)
    (call : Call → LexerM Reply) : r.run call l = r.lookedAhead call l := by
  rw [run_lookahead hk hb, lookedAhead, Program.bind_apply, Program.bind_apply,
    firstScanned_eq_dispatchOnce h hne hst]

def tooLong (n : Nat) : Pattern := .literal (String.ofList (List.replicate n 'x'))

theorem tooLong_missed {n : Nat} {text : List Char} (h : text.length < n) (i : Nat) :
    (tooLong n).matchAt? text i = none := by
  have hp : ¬ List.replicate n 'x' <+: text.drop i := by
    intro hp
    have := hp.length_le
    simp only [List.length_replicate, List.length_drop] at this
    omega
  simp [tooLong, Pattern.matchAt?, hp]

theorem tooLong_no_lexeme {n : Nat} {lexeme : List Char} (h : lexeme.length < n) :
    (tooLong n).matchesLexeme lexeme = false := by
  have hne : lexeme ≠ List.replicate n 'x' := by
    rintro rfl
    simp at h
  simp [tooLong, Pattern.matchesLexeme, hne]

def idle (n : Nat) : Rule :=
  { name := "idle"
    kind := .lookahead
    handlers := [⟨tooLong n, .clear⟩, ⟨tooLong n, .clear⟩]
    otherwise := .onLexeme (tooLong n) .clear none }

theorem scanToken_tooLong {n : Nat} (h : Engine.scanLayout l.engine = .ok o e)
    (hn : l.engine.input.length < n) :
    scanToken (tooLong n) l = .ok false { l with engine := e } := by
  cases o with
  | some x => exact scanToken_reported _ h
  | none =>
    have hi := (Engine.scanLayout_eq_ok_iff.mp h).2.sameText.input
    exact scanToken_missed h (tooLong_missed (hi ▸ hn) _)

theorem otherwise_idle {n : Nat} (hn : l.engine.lexeme.length < n)
    (call : Call → LexerM Reply) : (idle n).otherwise.run call l = .ok none l := by
  simp [idle, Action.run, tooLong_no_lexeme hn, Action.runOption]

theorem lookedAhead_idle {n : Nat} (h : Engine.scanLayout l.engine = .ok o e)
    (hn : l.engine.input.length < n) (hx : e.lexeme.length < n) (call : Call → LexerM Reply) :
    (idle n).lookedAhead call l = .ok none { l with engine := e } := by
  have hi := (Engine.scanLayout_eq_ok_iff.mp h).2.sameText.input
  have hm : (tooLong n).matchAt? e.input e.pos = none := tooLong_missed (hi ▸ hn) _
  have hd : dispatchOnce (idle n).handlers l = .ok none { l with engine := e } := by
    simp only [dispatchOnce, Program.bind_apply, onEngine, h]
    cases o <;> simp [takeMatching, matchingHandler?, idle, hm]
  rw [lookedAhead, Program.bind_apply, hd]
  exact otherwise_idle hx call

theorem run_idle {n : Nat} (h : Engine.scanLayout l.engine = .ok o e)
    (hn : l.engine.input.length < n)
    (hx : (Program.final (Engine.scanLayout e)).lexeme.length < n) (call : Call → LexerM Reply) :
    (idle n).run call l = match Engine.scanLayout e with
      | .ok _ e' => .ok none { l with engine := e' }
      | .error fault e' => .error (.fault fault) { l with engine := e' } := by
  have hi := (Engine.scanLayout_eq_ok_iff.mp h).2.sameText.input
  rw [run_lookahead rfl rfl, Program.bind_apply]
  simp only [idle, firstScanned, Program.bind_apply, scanToken_tooLong h hn]
  cases h' : Engine.scanLayout e with
  | ok o' e' =>
    have hscan : scanToken (tooLong n) { l with engine := e } = .ok false { l with engine := e' } :=
      scanToken_tooLong (l := { l with engine := e }) h' (by simpa [hi] using hn)
    rw [h'] at hx
    simp only [Bool.false_eq_true, ↓reduceIte, Program.bind_apply, hscan, Program.pure_apply]
    exact otherwise_idle (l := { l with engine := e' }) hx call
  | error fault e' =>
    simp [scanToken, onEngine, Engine.scan, h']

/-- A look-ahead rule deals with the layout once for each handler, so its handlers are tried
against one text if and only if the layout is steady where the first trial leaves it: no noise
is ahead there, and either the line has a body there that no indentation starts, or a separator
stopped a token in progress. A single handler is always tried as it should be, and a rule
without handlers does not look at the layout at all. -/
theorem handlers_share_text_iff (h : Engine.scanLayout l.engine = .ok o e) :
    (∀ call (r : Rule), r.kind = .lookahead → r.before = none → r.handlers = [] →
      r.run call l = r.otherwise.run call l) ∧
    (∀ call (r : Rule), r.kind = .lookahead → r.before = none → r.handlers.length = 1 →
      r.run call l = r.lookedAhead call l) ∧
    ((∀ call (r : Rule), r.kind = .lookahead → r.before = none → r.handlers ≠ [] →
      r.run call l = r.lookedAhead call l) ↔ Engine.Steady o e) := by
  obtain ⟨hs, hl⟩ := Engine.scanLayout_eq_ok_iff.mp h
  refine ⟨?_, ?_, ?_, ?_⟩
  · intro call r hk hb hnil
    rw [run_lookahead hk hb, hnil]
    rfl
  · intro call r hk hb hone
    refine run_eq_lookedAhead hk hb ?_ h (.inl hone) call
    intro hnil
    simp [hnil] at hone
  · -- the rule that does nothing tells the two states apart
    intro hall
    rw [Engine.scanLayout_again_iff h]
    let n := l.engine.input.length + e.lexeme.length +
      (Program.final (Engine.scanLayout e)).lexeme.length + 1
    have heq := hall (fun _ => pure none) (idle n) rfl rfl (by simp [idle])
    rw [lookedAhead_idle h (by omega) (by omega), run_idle h (by omega) (by omega)] at heq
    cases h' : Engine.scanLayout e with
    | error fault e' => simp [h'] at heq
    | ok o' e' =>
      simp only [h', EStateM.Result.ok.injEq, Lexer.mk.injEq, and_true, true_and] at heq
      exact ⟨o', by rw [heq]⟩
  · intro hst call r hk hb hne
    exact run_eq_lookedAhead hk hb hne h (.inr (hst.scanLayout_again hs hl)) call

def reading (text : List Char) : Lexer :=
  { engine := { Engine.new {} with toScan := .initial .ready, input := text }
    queue := .empty
    ruleset := {}
    options := {} }

/-- At the end of an empty line two handlers are tried against two lines. -/
theorem line_end_splits_handlers :
    ∃ e, Engine.scanLayout (reading ['\n', 'b']).engine = .ok (some .lineEnd) e ∧
      ∃ call, ∃ r : Rule, r.kind = .lookahead ∧ r.before = none ∧ r.handlers ≠ [] ∧
        r.run call (reading ['\n', 'b']) ≠ r.lookedAhead call (reading ['\n', 'b']) := by
  have h : Engine.scanLayout (reading ['\n', 'b']).engine = .ok (some .lineEnd)
      ((reading ['\n', 'b']).engine.lineEnded 1) := rfl
  have hst : ¬ Engine.Steady (some .lineEnd) ((reading ['\n', 'b']).engine.lineEnded 1) := by
    decide
  have hsome := (not_congr (handlers_share_text_iff h).2.2).mpr hst
  simp only [Classical.not_forall] at hsome
  obtain ⟨call, r, hk, hb, hne, hdiff⟩ := hsome
  exact ⟨_, h, call, r, hk, hb, hne, hdiff⟩

end Rule
end TableLexer
