import TableLexer.Proofs.Lexer.Robust
import TableLexer.Proofs.Lexer.Runs
import TableLexer.Proofs.Lookahead

/-!
# Tabular lexers

A tabular lexer makes one token of every match of a handler, and reports every character at which
no handler matches. Each step of its driver consumes one stretch of the text: indentation, a match
or a character, with the noise before it; or it reports a line end or the end of the text. What
the step queues tells which.
-/
namespace TableLexer

/-- Where noise has ended, neither noise nor indentation starts. -/
def EngineConfig.NoiseSettles (config : EngineConfig) : Prop :=
  ∀ text i n, config.noise.consumedAt? text i = some n →
    config.noise.consumedAt? text (i + n) = none ∧
      ∀ p ∈ config.indentation, p.consumedAt? text (i + n) = none

structure Rule.Tabular (r : Rule) : Prop where
  kind : r.kind = .lookahead
  before : r.before = none
  handlers : ∀ h ∈ r.handlers, ∃ type, h.action = .enqueue type
  otherwise : r.otherwise = .unknownToken

structure Rule.NamesTokens (r : Rule) (options : Options) : Prop where
  indent : options.indentType.isBlankSymbol = false
  lineEnd : options.eolType.isBlankSymbol = false
  handlers : ∀ h ∈ r.handlers, ∀ type, h.action = .enqueue type → type.isBlankSymbol = false

structure Token.Covers (text : List Char) (i n : Nat) (t : Token) : Prop where
  lexeme : t.lexeme.toList = Text.slice text i (i + n)
  place : t.position.offset = i
  within : i + n ≤ text.length

namespace Queue

variable {q r : Queue} {type : TokenType} {token : Token} {reply : Option Entry}

theorem transformed_asis (h : q.transforms = [])
    (ht : q.transformed (.token type token) = .ok reply) : reply = some (.token type token) := by
  rw [transformed_token] at ht
  split at ht
  · cases ht
  · simp only [transform?, h, List.find?_nil, Except.ok.injEq] at ht
    exact ht.symm

theorem enqueue_asis (h : q.transforms = [])
    (hq : q.enqueue (.token type token) = .ok (reply, r)) :
    r.toList = q.toList ++ [.token type token] := by
  obtain ⟨ht, hl, -⟩ := enqueue_eq_ok hq
  rw [hl, transformed_asis h ht]
  rfl

theorem enqueue_nameless (h : q.transforms = []) {fault : LexError}
    (hq : q.enqueue (.token type token) = .error fault) : type.isBlankSymbol = true := by
  cases hb : type.isBlankSymbol with
  | true => rfl
  | false =>
    obtain ⟨reply, r, hr⟩ := enqueue_succeeds (q := q) (by simp [h]) hb token
    cases hr.symm.trans hq

theorem pushAhead_nameless (h : q.transforms = []) {fault : LexError}
    (hq : q.pushAhead (.token type token) = .error fault) : type.isBlankSymbol = true := by
  cases hb : type.isBlankSymbol with
  | true => rfl
  | false =>
    obtain ⟨reply, r, hr⟩ := pushAhead_succeeds (q := q) (by simp [h]) hb token
    cases hr.symm.trans hq

theorem pushAhead_asis (h : q.transforms = [])
    (hq : q.pushAhead (.token type token) = .ok (reply, r)) :
    r.toList = .token type token :: q.toList := by
  obtain ⟨ht, hl, -⟩ := pushAhead_eq_ok hq
  rw [hl, transformed_asis h ht]
  rfl

end Queue

namespace Engine

variable {e : Engine} {n : Nat}

theorem covers_upcoming {e' : Engine} (hx : e'.lexeme = e.upcoming n)
    (ha : e'.lexeme ≠ [] → e'.anchor.pos = e.pos) (hp : e'.lexeme = [] → e'.pos = e.pos)
    (hn : e.pos + n ≤ e.input.length) :
    (Token.ofLexeme e'.lexemeText e'.lexemePosition).Covers e.input e.pos n := by
  refine ⟨?_, ?_, hn⟩
  · simp only [Token.ofLexeme, lexemeText, String.toList_ofList, hx]
    rfl
  · simp only [Token.ofLexeme, lexemePosition]
    split
    · next he => exact hp (by simpa using he)
    · next he => exact ha (by simpa using he)

theorem upcoming_length (h : e.pos + n ≤ e.input.length) : (e.upcoming n).length = n := by
  simp only [upcoming, Text.slice, List.length_drop, List.length_take]
  omega

theorem upcoming_eq_nil (h : e.pos + n ≤ e.input.length) : e.upcoming n = [] ↔ n = 0 := by
  rw [← List.length_eq_zero_iff, upcoming_length h]

theorem indented_covers (hx : e.lexeme = []) (h : e.indentation? = some n) :
    (Token.ofLexeme (e.indented n).lexemeText (e.indented n).lexemePosition).Covers
      e.input e.pos n := by
  obtain ⟨-, hn, hin⟩ := indentation?_eq_some h
  have hlexeme : (e.indented n).lexeme = e.upcoming n := by
    simp [indented, takeChars, advance, pushLexeme, hx]
  refine covers_upcoming hlexeme ?_ ?_ hin
  · intro _
    simp [indented, takeChars, advance, pushLexeme, hx]
  · intro hnil
    rw [hlexeme, upcoming_eq_nil hin] at hnil
    omega

theorem tokenTaken_covers (p : Pattern) (hx : e.lexeme = [])
    (hn : e.pos + n ≤ e.input.length) :
    (Token.ofLexeme (e.tokenTaken p n).lexemeText (e.tokenTaken p n).lexemePosition).Covers
      e.input e.pos n := by
  have hlexeme : (e.tokenTaken p n).lexeme = e.upcoming n := by simp [tokenTaken, hx]
  refine covers_upcoming hlexeme ?_ ?_ hn
  · intro _
    simp [tokenTaken, hx]
  · intro hnil
    rw [hlexeme, upcoming_eq_nil hn] at hnil
    simp [tokenTaken, hnil]

structure BeforeToken (e : Engine) : Prop where
  ready : e.recognition = .ready
  lexeme : e.lexeme = []
  line : e.lineState ≠ .atLineEnd
  inside : e.pos < e.input.length
  plain : e.separator? = none

theorem nextChar_body (hs : e.Scannable) (hin : e.pos < e.input.length)
    (hsep : e.separator? = none) (hl : e.lineState ≠ .atLineEnd) :
    nextChar e = .ok (some e.input[e.pos]) e.released.charTaken := by
  rw [nextChar_eq hs, List.getElem?_eq_getElem hin]
  simp [hsep, hl]

theorem charTaken_rested (e : Engine) :
    e.charTaken.rested.pos = e.pos + 1 ∧ e.charTaken.rested.lineState = .inLineBody ∧
      e.charTaken.rested.recognition = .ready ∧ e.charTaken.rested.lexeme = [] := by
  simp [rested, charTaken, takeChars, advance, pushLexeme]

theorem BeforeToken.charTaken_position (h : e.BeforeToken) :
    e.charTaken.lexemePosition = e.currentPosition := by
  have hone : e.upcoming 1 ≠ [] := by
    rw [ne_eq, upcoming_eq_nil h.inside]
    decide
  have hlexeme : e.charTaken.lexeme = e.upcoming 1 := by
    simp [charTaken, takeChars, advance, pushLexeme, h.lexeme]
  rw [lexemePosition, hlexeme, if_neg (by simpa using hone)]
  simp [charTaken, takeChars, advance, pushLexeme, h.lexeme, currentPosition]

theorem charTaken_failed_rested (e : Engine) :
    e.charTaken.failedNow.rested = e.charTaken.rested := by
  simp [rested, failedNow, charTaken]

theorem lineEnded_covers (hr : e.recognition = .ready) (h : e.separator? = some n) :
    (Token.ofLexeme (e.lineEnded n).lexemeText (e.lineEnded n).lexemePosition).Covers
      e.input e.pos n := by
  obtain ⟨hpos, hn⟩ := Pattern.consumedAt?_within h
  have hlexeme : (e.lineEnded n).lexeme = e.upcoming n := by
    simp [lineEnded, hr, showSeparator, clearLexeme, pushLexeme, upcoming]
  refine covers_upcoming hlexeme ?_ ?_ hn
  · intro _
    simp [lineEnded, hr, showSeparator, clearLexeme, pushLexeme]
  · intro hnil
    rw [hlexeme, upcoming_eq_nil hn] at hnil
    omega

theorem LaidOut.steady {e' : Engine} (hl : LaidOut e none e') (hs : e.config.NoiseSettles) :
    Steady none e' := by
  cases hl with
  | body hi _ _ =>
    have hc : e.opened.config = e.config := by simp
    have hpos := skipNoise_pos e.opened
    cases hn : e.opened.config.noise.consumedAt? e.opened.input e.opened.pos with
    | none =>
      rw [skipNoise_eq_self hn]
      exact ⟨hn, .inl ⟨rfl, hi⟩⟩
    | some n =>
      rw [hn, Option.getD_some] at hpos
      rw [hc] at hn
      obtain ⟨hnone, hindent⟩ := hs _ _ _ hn
      refine ⟨by simpa [hpos, hc] using hnone, .inl ⟨rfl, ?_⟩⟩
      unfold indentation?
      split
      · cases hp : e.opened.skipNoise.config.indentation with
        | none => rfl
        | some p => simpa [hpos] using hindent p (by simpa [hc] using hp)
      · rfl

end Engine

namespace Rule

open Lexer

/-- Where the layout is steady a look-ahead rule takes the match of the first handler that
matches. -/
theorem firstScanned_steady {l : Lexer} (h : Engine.scanLayout l.engine = .ok none l.engine)
    (handlers : List Handler) : firstScanned handlers l = takeMatching handlers l := by
  cases handlers with
  | nil => rfl
  | cons first rest => exact firstScanned_tried h (by simp) (.inr h)

theorem matchingHandler?_eq_some {handlers : List Handler} {e : Engine} {handler : Handler}
    (h : matchingHandler? handlers e = some handler) :
    handler ∈ handlers ∧ ∃ k, handler.pattern.matchAt? e.input e.pos = some k := by
  unfold matchingHandler? at h
  have hsome := List.find?_some h
  exact ⟨List.mem_of_find?_eq_some h, Option.isSome_iff_exists.mp hsome⟩

/-- How a tabular rule comes out where the layout is steady: it queues a token for the match of a
handler, the type of the token has no name, or nothing matches and a character is reported. -/
inductive Tried (r : Rule) (a : Lexer) : EStateM.Result Stop Lexer Reply → Prop where
  | matched {p : Pattern} {k : Nat} {type : TokenType} {reply : Reply} {queue : Queue}
      {stats : Stats} (hk : p.matchAt? a.engine.input a.engine.pos = some k)
      (hq : queue.toList = a.queue.toList ++ [.token type (.ofLexeme
        (a.engine.tokenTaken p k).lexemeText (a.engine.tokenTaken p k).lexemePosition)]) :
      Tried r a (.ok reply
        { a with engine := (a.engine.tokenTaken p k).clearLexeme, queue, stats })
  | nameless {fault : LexError} {c : Lexer} (hk : fault.kind = .internal)
      (hn : ∀ options, ¬ r.NamesTokens options) : Tried r a (.error (.fault fault) c)
  | unknown : Tried r a (.error (.fault (.located (.unknownToken a.engine.charTaken.lexemeText)
      a.engine.charTaken.lexemePosition)) { a with engine := a.engine.charTaken.failedNow })

theorem tried_matched {r : Rule} {a : Lexer} {p : Pattern} {k : Nat}
    (hk : p.matchAt? a.engine.input a.engine.pos = some k) (ht : a.queue.transforms = [])
    {h : Handler} (hmem : h ∈ r.handlers) {type : TokenType} (htype : h.action = .enqueue type) :
    Tried r a (enqueueToken type { a with engine := a.engine.tokenTaken p k }) := by
  have hnow : (a.engine.tokenTaken p k).recognizedNow = a.engine.tokenTaken p k := by
    simp [Engine.recognizedNow, Engine.Unclaimed, Engine.tokenTaken]
  have hgo : (a.engine.tokenTaken p k).recognition.isTerminal = false := rfl
  rw [enqueueToken_eq]
  simp only [hgo, Bool.false_eq_true, ↓reduceIte, hnow]
  split
  · next reply queue henq => exact .matched hk (Queue.enqueue_asis ht henq)
  · next fault henq =>
    refine .nameless (Queue.enqueue_fails henq) fun options hn => ?_
    have hblank := Queue.enqueue_nameless ht henq
    simp [hn.handlers h hmem type htype] at hblank

theorem tried_unknown {r : Rule} {a : Lexer} (h : a.engine.BeforeToken) :
    Tried r a (unknownToken a) := by
  have hreleased : a.engine.released = a.engine := by simp [Engine.released, h.ready]
  have hnext := Engine.nextChar_body (.inl h.ready) h.inside h.plain h.line
  rw [unknownToken_eq]
  simp only [h.ready, h.lexeme, List.isEmpty_nil, ↓reduceIte, hnext, hreleased]
  exact .unknown

theorem Tabular.run_tried {r : Rule} (hr : r.Tabular) {a : Lexer} (hops : a.operations = [])
    (ht : a.queue.transforms = []) (hlay : Engine.scanLayout a.engine = .ok none a.engine)
    (h : a.engine.BeforeToken) (call : Call → LexerM Reply) : Tried r a (r.run call a) := by
  rw [run_lookahead hr.kind hr.before, Program.bind_apply, firstScanned_steady hlay]
  simp only [takeMatching, Program.bind_apply, Program.get_apply]
  cases hm : matchingHandler? r.handlers a.engine with
  | none =>
    have hrun : r.otherwise.run call a = unknownToken a := by
      simp [hr.otherwise, Action.unknownToken, Action.run, sendMessage_eq hops, builtIn]
    simpa [chosen, hrun] using tried_unknown (r := r) h
  | some handler =>
    obtain ⟨hmem, k, hk⟩ := matchingHandler?_eq_some hm
    obtain ⟨type, htype⟩ := hr.handlers handler hmem
    simpa [onEngine, Engine.tryPattern_eq _ (.inl h.ready), hk, h.line, chosen, htype, Action.run]
      using tried_matched hk ht hmem htype

end Rule

namespace Lexer

structure Tabular (r : Rule) (l : Lexer) : Prop where
  operations : l.operations = []
  transforms : l.queue.transforms = []
  rule : l.modeRule? = some r
  table : r.Tabular
  settles : l.engine.config.NoiseSettles
  rests : l.engine.recognition ≠ .tokenizing
  idle : l.engine.Idle

def opening (l : Lexer) : Nat := l.engine.opened.pos

def body (l : Lexer) : Nat := l.engine.opened.skipNoise.pos

theorem body_eq (l : Lexer) : l.body =
    l.opening + (l.engine.config.noise.consumedAt? l.engine.input l.opening).getD 0 := by
  rw [body, Engine.skipNoise_pos, (Engine.opened_text l.engine).1, (Engine.opened_text l.engine).2]
  rfl

/-- What a driver step of a tabular lexer queues, and where the step after it will look at the
layout. A line end counts as taken when it is reported. -/
inductive Takes (l : Lexer) : List Entry → Nat → Prop where
  | indentation {type t k} (hi : l.engine.opened.indentation? = some k)
      (ht : t.Covers l.engine.input l.opening k) : Takes l [.token type t] (l.opening + k)
  | endOfStream {t} (hi : l.engine.opened.indentation? = none)
      (he : l.engine.input.length ≤ l.body) : Takes l [.endOfStream t] l.body
  | lineEnd {k} (hi : l.engine.opened.indentation? = none)
      (hs : l.engine.config.eol.consumedAt? l.engine.input l.body = some k) :
      Takes l [] (l.body + k)
  | lineToken {type t k} (hi : l.engine.opened.indentation? = none)
      (hs : l.engine.config.eol.consumedAt? l.engine.input l.body = some k)
      (ht : t.Covers l.engine.input l.body k) : Takes l [.token type t] (l.body + k)
  | token {type t k} (hi : l.engine.opened.indentation? = none) (hk : 0 < k)
      (ht : t.Covers l.engine.input l.body k) : Takes l [.token type t] (l.body + k)
  | stalled {type t e p} (hi : l.engine.opened.indentation? = none)
      (hin : l.body < l.engine.input.length) (ht : t.Covers l.engine.input l.body 0)
      (he : e.position = some p) (hp : p.offset = l.body) :
      Takes l [.token type t, .error e] (l.body + 1)
  | unknown {e p} (hi : l.engine.opened.indentation? = none)
      (hin : l.body < l.engine.input.length) (he : e.position = some p)
      (hp : p.offset = l.body) : Takes l [.error e] (l.body + 1)

/-- How a driver step of a tabular lexer comes out. It takes something, and unless that is the end
of the text the next step can follow; or the type of a token has no name. -/
inductive Tabulated (r : Rule) (l : Lexer) : EStateM.Result Stop Lexer Unit → Prop where
  | took {b} (hb : b.Tabular r) (ht : Takes l b.queue.toList b.opening)
      (hs : b.engine.Scannable ∨
        b.engine.recognition = .done ∧ ∃ e ∈ b.queue.toList, e.isEnd = true) :
      Tabulated r l (.ok () b)
  | nameless {fault b} (hn : ¬ r.NamesTokens l.options) : Tabulated r l (.error (.fault fault) b)

variable {r : Rule} {l b : Lexer} {n : Nat}

theorem Tabular.moved (h : l.Tabular r) (hframe : SameFrame l b) (hmodes : b.modes = l.modes)
    (hrests : b.engine.recognition ≠ .tokenizing) (hidle : b.engine.Idle) : b.Tabular r where
  operations := hframe.operations.trans h.operations
  transforms := hframe.transforms.trans h.transforms
  rule := by
    rw [modeRule?, hframe.options, hframe.ruleset, hmodes]
    exact h.rule
  table := h.table
  settles := by
    rw [hframe.text.config]
    exact h.settles
  rests := hrests
  idle := hidle

theorem opening_eq_pos (h : l.engine.lineState ≠ .atLineEnd) : l.opening = l.engine.pos := by
  have hmark : l.engine.released.toMark = l.engine.toMark := by simp
  unfold opening Engine.opened Engine.lineBegun
  split
  · next hc => exact absurd (by simpa [hmark] using hc.1) h
  · rw [hmark]

section Fill

variable {e : Engine}

structure BehindNoise (l : Lexer) (e : Engine) : Prop where
  ready : e.recognition = .ready
  lexeme : e.lexeme = []
  line : e.lineState ≠ .atLineEnd
  input : e.input = l.engine.input
  config : e.config = l.engine.config
  pos : e.pos = l.body

theorem Tabular.behindNoise (h : l.Tabular r) (hs : l.engine.Scannable) :
    l.BehindNoise l.engine.opened.skipNoise := by
  have hready : l.engine.opened.recognition = .ready := by
    apply Engine.opened_ready
    exact hs.imp_right fun k => k.resolve_left h.rests
  constructor
  · simpa using hready
  · simpa using h.idle.opened_lexeme hready
  · simpa using Engine.opened_lineState hready
  · simp
  · simp
  · rfl

theorem Tabular.fill_indentation (h : l.Tabular r) (hq : l.queue.toList = [])
    (hs : l.engine.Scannable) {k : Nat} (hi : l.engine.opened.indentation? = some k) :
    Tabulated r l (enqueueIndent { l with engine := l.engine.opened.indented k }) := by
  have hframe : SameFrame l { l with engine := l.engine.opened.indented k } :=
    ⟨(Engine.LaidOut.indentation hi).sameText, rfl, rfl, rfl, rfl⟩
  have hall := hframe.trans (enqueueIndent_frame _)
  have hx : l.engine.opened.lexeme = [] := by simpa using (h.behindNoise hs).lexeme
  have hinput : l.engine.opened.input = l.engine.input := by simp
  rw [enqueueIndent_eq rfl] at hall ⊢
  dsimp only at hall ⊢
  split
  · next reply queue henq =>
    rw [henq] at hall
    refine .took ?_ ?_ (.inl (.inr (.inr rfl)))
    · exact h.moved hall rfl (by simp [Engine.clearLexeme, Engine.indented])
        (by simp [Engine.Idle, Engine.clearLexeme, Engine.indented])
    · rw [opening_eq_pos (by simp [Engine.clearLexeme, Engine.indented]),
        Queue.enqueue_asis h.transforms henq, hq]
      exact .indentation hi (hinput ▸ Engine.indented_covers hx hi)
  · next fault henq =>
    refine .nameless fun hn => ?_
    have hblank := Queue.enqueue_nameless h.transforms henq
    simp [hn.indent] at hblank

theorem Tabular.fill_end (h : l.Tabular r) (hq : l.queue.toList = []) (hb : l.BehindNoise e)
    (hi : l.engine.opened.indentation? = none) (he : e.atEnd = true)
    (hframe : SameFrame l (endQueued { l with engine := e.ended })) :
    Tabulated r l (.ok () (endQueued { l with engine := e.ended })) := by
  have hend : l.engine.input.length ≤ l.body := by
    rw [← hb.input, ← hb.pos]
    simpa [Engine.atEnd] using he
  have hended : e.ended.recognition = .done := by
    have hnot : e.recognition ≠ .tokenizing := by
      rw [hb.ready]
      decide
    rw [Engine.ended, if_neg hnot]
  have hqueue := endQueued_toList { l with engine := e.ended }
  refine .took ?_ ?_ (.inr ⟨hended, ?_⟩)
  · refine h.moved hframe rfl ?_ fun hready => ?_
    · simp [endQueued, hended]
    · simp [endQueued, hended] at hready
  · have hpos : e.ended.pos = l.body := hb.pos
    rw [hqueue, hq, opening_eq_pos (by simpa [endQueued, Engine.ended] using hb.line)]
    exact hpos ▸ .endOfStream hi hend
  · rw [hqueue]
    exact ⟨_, List.mem_append_right _ (List.mem_singleton_self _), rfl⟩

theorem Tabular.fill_lineEnd (h : l.Tabular r) (hq : l.queue.toList = []) (hb : l.BehindNoise e)
    {k : Nat} (hi : l.engine.opened.indentation? = none) (hsep : e.separator? = some k)
    (hframe : SameFrame l { l with engine := e.lineEnded k }) :
    Tabulated r l (enqueueLineEnd { l with engine := e.lineEnded k }) := by
  have hcovers := Engine.lineEnded_covers hb.ready hsep
  rw [hb.input, hb.pos] at hcovers
  have hall := hframe.trans (enqueueLineEnd_frame _)
  have hready : (e.lineEnded k).recognition = .ready := by simpa using hb.ready
  have hline : (e.lineEnded k).lineState = .atLineEnd := by simp
  have hlater : (e.lineEnded k).separator? = some k := by simpa [Engine.separator?] using hsep
  have hpos : (e.lineEnded k).pos = l.body := by simp [hb.pos]
  rw [Engine.separator?, hb.config, hb.input, hb.pos] at hsep
  -- the separator is still ahead, and the step after this one takes it
  have ended : ∀ {b : Lexer}, SameFrame l b → b.modes = l.modes → b.engine = e.lineEnded k →
      (b.queue.toList = [] ∨ ∃ type t, b.queue.toList = [.token type t] ∧
        t.Covers l.engine.input l.body k) → Tabulated r l (.ok () b) := by
    intro b hb hmodes hbe hqueue
    rw [← hbe] at hready hline hlater hpos
    have hopening : b.opening = l.body + k := by
      rw [opening, Engine.opened_pos (.inl hready), if_pos hline, hlater, hpos]
      rfl
    refine .took (h.moved hb hmodes (by simp [hready]) fun _ _ => hline) ?_ (.inl (.inl hready))
    rw [hopening]
    rcases hqueue with hqueue | ⟨type, t, hqueue, ht⟩
    · rw [hqueue]
      exact .lineEnd hi hsep
    · rw [hqueue]
      exact .lineToken hi hsep ht
  rw [enqueueLineEnd_eq] at hall ⊢
  split
  · next htokens =>
    rw [if_pos htokens] at hall
    split
    · next reply queue hpush =>
      have hlist := Queue.pushAhead_asis h.transforms hpush
      rw [hq] at hlist
      rw [hpush] at hall
      exact ended hall rfl rfl (.inr ⟨_, _, hlist, hcovers⟩)
    · next fault hpush =>
      refine .nameless fun hn => ?_
      have hblank := Queue.pushAhead_nameless h.transforms hpush
      simp [hn.lineEnd] at hblank
  · exact ended hframe rfl rfl (.inl hq)

theorem Tabular.came_to_body (h : l.Tabular r) (hframe : SameFrame l b)
    (hmodes : b.modes = l.modes) (hline : b.engine.lineState = .inLineBody)
    (hx : b.engine.lexeme = [])
    (hr : b.engine.recognition = .ready ∨ b.engine.recognition = .recognized)
    (ht : Takes l b.queue.toList b.engine.pos) : Tabulated r l (.ok () b) := by
  refine .took (h.moved hframe hmodes ?_ fun _ hne => absurd hx hne) ?_ (.inl (hr.imp_right .inr))
  · rcases hr with hr | hr <;> simp [hr]
  · rwa [opening_eq_pos (by simp [hline])]

theorem Tabular.char_dropped (h : l.Tabular r) (hframe : SameFrame l b)
    (hmodes : b.modes = l.modes) (hpos : e.pos = l.body) (hbe : b.engine = e.charTaken.rested)
    (ht : Takes l b.queue.toList (l.body + 1)) : Tabulated r l (.ok () b) := by
  obtain ⟨hmoved, hline, hready, hlexeme⟩ := Engine.charTaken_rested e
  rw [← hbe] at hmoved hline hready hlexeme
  rw [← hpos, ← hmoved] at ht
  exact h.came_to_body hframe hmodes hline hlexeme (.inl hready) ht

/-- A rule that got on needs nothing more. -/
theorem settle_moved {rule : String} {start : Mark} {captured : Bool}
    (hr : l.engine.recognition = .recognized) (hp : l.engine.pos ≠ start.pos) :
    settle rule start captured l = .ok () l := by
  simp [settle_eq, hr, stalled, hp]

theorem settle_failed {rule : String} {start : Mark} {captured : Bool}
    (hr : l.engine.recognition = .failed) :
    settle rule start captured l = .ok () { l with engine := l.engine.rested } := by
  simp [settle_eq, hr]

/-- For a token without a character the next character is dropped, and reported. -/
theorem settle_stalled {rule : String} {start : Mark}
    (hr : l.engine.recognition = .recognized) (hl : l.engine.lineState = .inLineBody)
    (hp : l.engine.pos = start.pos) (hin : l.engine.pos < l.engine.input.length)
    (hsep : l.engine.separator? = none) :
    settle rule start false l = .ok ()
      { l.errorQueued (.located (.stalledRule rule) l.engine.currentPosition) with
        engine := l.engine.released.charTaken.rested } := by
  have hstalled : stalled start l.engine.toMark = true := by simp [stalled, hp, hl]
  have hnext := Engine.nextChar_body (.inr (.inr hr)) hin hsep (by simp [hl])
  simp only [settle_eq, hr, hstalled, complained, Bool.false_eq_true, ↓reduceIte]
  rw [skipChar_eq, errorQueued, hnext]

theorem Tabular.fill_matched (h : l.Tabular r) (hb : l.BehindNoise e)
    (hbefore : e.BeforeToken) (hi : l.engine.opened.indentation? = none) {p : Pattern} {k : Nat}
    (hk : e.pos + k ≤ e.input.length) {c : Lexer}
    (hce : c.engine = (e.tokenTaken p k).clearLexeme) (hcm : c.modes = l.modes)
    {type : TokenType} (hcq : c.queue.toList = [.token type
      (.ofLexeme (e.tokenTaken p k).lexemeText (e.tokenTaken p k).lexemePosition)])
    {rule : String}
    (hframe : SameFrame l (Program.final (settle rule e.toMark false c))) :
    Tabulated r l (settle rule e.toMark false c) := by
  have hcovers := Engine.tokenTaken_covers p hb.lexeme hk
  rw [hb.input, hb.pos] at hcovers
  have hr : c.engine.recognition = .recognized := by rw [hce]; rfl
  have hl : c.engine.lineState = .inLineBody := by rw [hce]; rfl
  have hp : c.engine.pos = l.body + k := by
    simp [hce, Engine.clearLexeme, Engine.tokenTaken, hb.pos]
  by_cases hzero : k = 0
  · subst hzero
    have hpe : c.engine.pos = e.pos := hp.trans hb.pos.symm
    have htext : c.engine.config = e.config ∧ c.engine.input = e.input := by
      simp [hce, Engine.clearLexeme, Engine.tokenTaken]
    have hinside : c.engine.pos < c.engine.input.length := by
      rw [htext.2, hpe]
      exact hbefore.inside
    have hplain : c.engine.separator? = none := by
      rw [Engine.separator?, htext.1, htext.2, hpe]
      exact hbefore.plain
    rw [settle_stalled hr hl hpe hinside hplain] at hframe ⊢
    have hreleased : c.engine.released.pos = l.body := by simpa using hp
    refine h.char_dropped hframe hcm hreleased rfl ?_
    have hqueue := errorQueued_toList (.located (.stalledRule rule) c.engine.currentPosition) c
    rw [hcq] at hqueue
    exact hqueue ▸ .stalled hi (hb.input ▸ hb.pos ▸ hbefore.inside) hcovers rfl hp
  · rw [settle_moved hr (by rw [hp, hb.pos]; omega)] at hframe ⊢
    refine h.came_to_body hframe hcm hl (by rw [hce]; rfl) (.inr hr) ?_
    rw [hp, hcq]
    exact .token hi (by omega) hcovers

theorem Tabular.fill_body (h : l.Tabular r) (hq : l.queue.toList = []) (hs : l.engine.Scannable)
    (hb : l.BehindNoise e) (hlaid : Engine.LaidOut l.engine none e)
    (hi : l.engine.opened.indentation? = none) (he : e.atEnd = false)
    (hsep : e.separator? = none) (n : Nat) : Tabulated r l (fillStep n l) := by
  have hbefore : e.BeforeToken :=
    ⟨hb.ready, hb.lexeme, hb.line, by simpa [Engine.atEnd] using he, hsep⟩
  have hframe := fillStep_frame n h.operations
  have hlay := Engine.scanLayout_eq_ok_iff.mpr ⟨hs, hlaid⟩
  have hagain := (hlaid.steady h.settles).scanLayout_again hs hlaid
  obtain ⟨name, hfill⟩ := fillStep_rule (n := n) hlay h.rule
  rw [hfill] at hframe ⊢
  obtain ⟨a, ha⟩ : ∃ a, a = ({ l with engine := e } : Lexer).counted := ⟨_, rfl⟩
  obtain ⟨hae, haq, ham, hao⟩ : a.engine = e ∧ a.queue = l.queue ∧ a.modes = l.modes ∧
      a.operations = l.operations := by
    rw [ha]
    exact ⟨rfl, rfl, rfl, rfl⟩
  rw [← ha] at hframe ⊢
  subst hae
  have htried := h.table.run_tried (hao.trans h.operations) (haq ▸ h.transforms) hagain hbefore
    (respond n)
  generalize r.run (respond n) a = result at htried hframe
  cases htried with
  | matched hk hqueue =>
    rw [haq, hq] at hqueue
    refine h.fill_matched hb hbefore hi (Pattern.matchAt?_within hk) ?_ ?_ hqueue hframe
    · rfl
    · exact ham
  | nameless hk hn =>
    simp only [hk, reduceCtorEq, ↓reduceIte]
    exact .nameless (hn _)
  | unknown =>
    dsimp only at hframe ⊢
    rw [if_pos (by rfl), settle_failed (by rfl)] at hframe ⊢
    refine h.char_dropped hframe ham hb.pos (Engine.charTaken_failed_rested a.engine) ?_
    have hqueue := errorQueued_toList (.located (.unknownToken a.engine.charTaken.lexemeText)
      a.engine.charTaken.lexemePosition) a
    rw [haq, hq, List.nil_append] at hqueue
    refine hqueue ▸ .unknown hi (hb.input ▸ hb.pos ▸ hbefore.inside) rfl ?_
    rw [hbefore.charTaken_position]
    exact hb.pos

/-- One step of the driver of a tabular lexer. -/
theorem Tabular.fill (h : l.Tabular r) (hq : l.queue.toList = []) (hs : l.engine.Scannable)
    (n : Nat) : Tabulated r l (fillStep n l) := by
  have hb := h.behindNoise hs
  have hframe := fillStep_frame n h.operations
  obtain ⟨o, e, hlay⟩ := Engine.scanLayout_total hs
  have hlaid := (Engine.scanLayout_eq_ok_iff.mp hlay).2
  cases hlaid with
  | indentation hi =>
    rw [fillStep_eq n hlay]
    exact h.fill_indentation hq hs hi
  | endOfStream hi he =>
    rw [fillStep_eq n hlay] at hframe ⊢
    exact h.fill_end hq hb hi he hframe
  | lineEnd hi he hsep =>
    rw [fillStep_eq n hlay]
    exact h.fill_lineEnd hq hb hi hsep
      ⟨(Engine.LaidOut.lineEnd hi he hsep).sameText, rfl, rfl, rfl, rfl⟩
  | body hi he hsep => exact h.fill_body hq hs hb (.body hi he hsep) hi he hsep n

end Fill

end Lexer
end TableLexer
