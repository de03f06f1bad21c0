import TableLexer.Proofs.CrlfText
import TableLexer.Proofs.Engine.Marks
import TableLexer.Proofs.Engine.Separators
import TableLexer.Proofs.LineShift
import TableLexer.Proofs.Locality

/-!
# The same text with two kinds of line ends

Two engines read a text without carriage returns and the same text with a carriage return before
each line feed. As long as patterns keep within a line, the engines do the same at places that
correspond, except where the second counts a line more: behind a comment that takes the carriage
return of its line.
-/
namespace TableLexer

open LayoutPattern (LineOver noise)

/-- The second mark stands at the corresponding place, `k` lines further down. -/
structure Mark.Mirrors (text : List Char) (k : Nat) (m m' : Mark) : Prop where
  within : m.pos ≤ text.length
  pos : m'.pos = Text.crlfPlace text m.pos
  line : m'.line = m.line + k
  lineState : m'.lineState = m.lineState
  lineStart : m.lineStart ≤ m.pos
  lineStart' : m'.lineStart ≤ m'.pos
  column : m'.pos - m'.lineStart = m.pos - m.lineStart

variable {text : List Char} {k : Nat}

theorem Mark.Mirrors.position {m m' : Mark} (h : m.Mirrors text k m') :
    m.position.Below k m'.position := Position.below_iff.mpr ⟨h.line, h.column⟩

theorem Mark.Mirrors.moved {m m' : Mark} (h : m.Mirrors text k m') {n : Nat} {line s : List Char}
    (hsplit : text.drop m.pos = line ++ s) (hline : '\n' ∉ line) (hn : n ≤ line.length) :
    ({ m with pos := m.pos + n } : Mark).Mirrors text k { m' with pos := m'.pos + n } := by
  have hlen := congrArg List.length hsplit
  rw [List.length_drop, List.length_append] at hlen
  have hw := h.within
  have hstart := h.lineStart
  have hstart' := h.lineStart'
  have hcolumn := h.column
  have hslice : Text.slice text m.pos (m.pos + n) = line.take n := by
    rw [Text.slice_add, hsplit, List.take_append_of_le_length hn]
  have hplace : Text.crlfPlace text (m.pos + n) = m'.pos + n := by
    rw [Text.crlfPlace_add, hslice, Text.crlf_line fun hmem => hline (List.mem_of_mem_take hmem),
      List.length_take, Nat.min_eq_left hn, h.pos]
  constructor
  · show m.pos + n ≤ text.length
    omega
  · exact hplace.symm
  · exact h.line
  · exact h.lineState
  · show m.lineStart ≤ m.pos + n
    omega
  · show m'.lineStart ≤ m'.pos + n
    omega
  · show m'.pos + n - m'.lineStart = m.pos + n - m.lineStart
    omega

theorem Mark.Mirrors.turned {m m' : Mark} (h : m.Mirrors text k m') (state : LineState) :
    ({ m with lineState := state } : Mark).Mirrors text k { m' with lineState := state } :=
  ⟨h.within, h.pos, h.line, rfl, h.lineStart, h.lineStart', h.column⟩

namespace Engine

def unindented : EngineConfig := { indentation := none }

structure Mirrors (text : List Char) (k : Nat) (e e' : Engine) : Prop where
  config : e.config = unindented
  config' : e'.config = unindented
  input : e.input = text
  input' : e'.input = Text.crlf text
  mark : e.toMark.Mirrors text k e'.toMark
  recognition : e'.recognition = e.recognition
  lexeme : e'.lexeme = e.lexeme
  anchor : e.lexeme ≠ [] → e.anchor.Mirrors text k e'.anchor

variable {e e' : Engine} {line s : List Char} {n : Nat}

theorem Mirrors.drop (h : Mirrors text k e e') (hsplit : text.drop e.pos = line ++ s)
    (hline : '\n' ∉ line) :
    e.input.drop e.pos = line ++ s ∧ e'.input.drop e'.pos = line ++ Text.crlf s := by
  refine ⟨h.input ▸ hsplit, ?_⟩
  rw [h.input', h.mark.pos, Text.drop_crlf, hsplit, Text.crlf_append, Text.crlf_line hline]

theorem Mirrors.here (h : Mirrors text k e e') :
    e.input.drop e.pos = text.drop e.pos ∧
      e'.input.drop e'.pos = Text.crlf (text.drop e.pos) := by
  refine ⟨by rw [h.input], ?_⟩
  rw [h.input', h.mark.pos, Text.drop_crlf]

theorem Mirrors.upcoming (h : Mirrors text k e e') (hsplit : text.drop e.pos = line ++ s)
    (hline : '\n' ∉ line) (hn : n ≤ line.length) :
    e.upcoming n = line.take n ∧ e'.upcoming n = line.take n := by
  obtain ⟨hd, hd'⟩ := h.drop hsplit hline
  constructor
  · rw [Engine.upcoming, Text.slice_add, hd, List.take_append_of_le_length hn]
  · rw [Engine.upcoming, Text.slice_add, hd', List.take_append_of_le_length hn]

theorem Mirrors.lexemePosition (h : Mirrors text k e e') :
    e.lexemePosition.Below k e'.lexemePosition := by
  unfold Engine.lexemePosition
  rw [h.lexeme]
  split
  · exact h.mark.position
  · next hne => exact (h.anchor (by simpa using hne)).position

theorem Mirrors.restated (h : Mirrors text k e e') (state : RecognitionState) :
    Mirrors text k { e with recognition := state } { e' with recognition := state } :=
  ⟨h.config, h.config', h.input, h.input', h.mark, rfl, h.lexeme, h.anchor⟩

theorem Mirrors.clearLexeme (h : Mirrors text k e e') :
    Mirrors text k e.clearLexeme e'.clearLexeme :=
  ⟨h.config, h.config', h.input, h.input', h.mark, h.recognition, rfl, fun hne => absurd rfl hne⟩

theorem Mirrors.released (h : Mirrors text k e e') : Mirrors text k e.released e'.released := by
  unfold Engine.released
  rw [h.recognition]
  split
  · exact (h.restated .ready).clearLexeme
  · exact h

theorem Mirrors.rested (h : Mirrors text k e e') : Mirrors text k e.rested e'.rested := by
  unfold Engine.rested
  rw [h.recognition]
  split
  · exact (h.restated .ready).clearLexeme
  · exact h

theorem Mirrors.failedNow (h : Mirrors text k e e') :
    Mirrors text k e.failedNow e'.failedNow := by
  unfold Engine.failedNow
  rw [h.recognition]
  split
  · exact h.restated .failed
  · exact h

theorem Mirrors.recognizedNow (h : Mirrors text k e e') :
    Mirrors text k e.recognizedNow e'.recognizedNow := by
  have hiff : e'.Unclaimed ↔ e.Unclaimed := by rw [Unclaimed, Unclaimed, h.recognition]
  by_cases hu : e.Unclaimed
  · simp only [Engine.recognizedNow, hiff, hu, ↓reduceIte]
    exact h.restated .recognized
  · simpa only [Engine.recognizedNow, hiff, hu, ↓reduceIte] using h

theorem Mirrors.ended (h : Mirrors text k e e') : Mirrors text k e.ended e'.ended := by
  unfold Engine.ended
  rw [h.recognition]
  exact h.restated _

theorem Mirrors.moved (h : Mirrors text k e e') (hsplit : text.drop e.pos = line ++ s)
    (hline : '\n' ∉ line) (hn : n ≤ line.length) :
    Mirrors text k (e.advance n) (e'.advance n) :=
  ⟨h.config, h.config', h.input, h.input', h.mark.moved hsplit hline hn, h.recognition, h.lexeme,
    h.anchor⟩

theorem Mirrors.takeChars (h : Mirrors text k e e') (hsplit : text.drop e.pos = line ++ s)
    (hline : '\n' ∉ line) (hn : n ≤ line.length) :
    Mirrors text k (e.takeChars n) (e'.takeChars n) := by
  obtain ⟨hu, hu'⟩ := h.upcoming hsplit hline hn
  have hmoved := h.moved hsplit hline hn
  refine ⟨h.config, h.config', h.input, h.input', hmoved.mark, h.recognition, ?_, ?_⟩
  · simp only [Engine.takeChars, pushLexeme, Engine.advance, h.lexeme, hu, hu']
  · intro _
    show Mark.Mirrors text k (if e.lexeme.isEmpty then e.toMark else e.anchor)
      (if e'.lexeme.isEmpty then e'.toMark else e'.anchor)
    rw [h.lexeme]
    by_cases hempty : e.lexeme.isEmpty = true
    · rw [if_pos hempty, if_pos hempty]
      exact h.mark
    · rw [if_neg hempty, if_neg hempty]
      exact h.anchor (by simpa using hempty)

theorem Mirrors.inLine (h : Mirrors text k e e') :
    Mirrors text k { e with lineState := .inLineBody } { e' with lineState := .inLineBody } :=
  ⟨h.config, h.config', h.input, h.input', h.mark.turned _, h.recognition, h.lexeme, h.anchor⟩

theorem Mirrors.charTaken (h : Mirrors text k e e') (hsplit : text.drop e.pos = line ++ s)
    (hline : '\n' ∉ line) (hn : 1 ≤ line.length) :
    Mirrors text k e.charTaken e'.charTaken :=
  (h.takeChars hsplit hline hn).inLine.restated .tokenizing

theorem takeMatch_plain {p : Pattern} (hconfig : e.config = unindented)
    (hplain : Text.hasLineBreak (e.upcoming n) = false) : e.takeMatch p n = e.takeChars n := by
  unfold takeMatch
  dsimp only
  split
  · have hends : (e.takeChars n).config.eol.matchEnds (e.upcoming n) = [] := by
      show e.config.eol.matchEnds _ = []
      rw [hconfig]
      exact LayoutPattern.matchEnds_plain hplain
    simp only [countBreaks, hends]
    rfl
  · rfl

theorem Mirrors.tokenTaken (h : Mirrors text k e e') (hsplit : text.drop e.pos = line ++ s)
    (hline : Text.hasLineBreak line = false) (hn : n ≤ line.length) (p : Pattern) :
    Mirrors text k (e.tokenTaken p n) (e'.tokenTaken p n) := by
  have hfeed := Text.no_feed hline
  have hplain : Text.hasLineBreak (line.take n) = false := Text.take_plain hline n
  obtain ⟨hu, hu'⟩ := h.upcoming hsplit hfeed hn
  unfold Engine.tokenTaken
  rw [takeMatch_plain h.config (hu ▸ hplain), takeMatch_plain h.config' (hu' ▸ hplain)]
  exact (h.takeChars hsplit hfeed hn).inLine.restated .recognized

theorem separator?_leads (hc : e.config = unindented) {ahead : List Char}
    (h : e.input.drop e.pos = ahead) : LayoutPattern.Leads ahead e.separator? := by
  have hleads := LayoutPattern.lineSeparator_leads e.input e.pos
  rw [h] at hleads
  unfold separator?
  rw [hc]
  exact hleads

theorem separator?_pair (hc : e.config = unindented) {rest : List Char}
    (h : e.input.drop e.pos = '\r' :: '\n' :: rest) : e.separator? = some 2 := by
  have hleads := separator?_leads hc h
  generalize e.separator? = found at hleads
  cases hleads with
  | pair => rfl
  | single _ h => exact absurd ⟨rfl, rfl⟩ h
  | plain h => exact absurd h (by decide)

theorem separator?_feed (hc : e.config = unindented) {rest : List Char}
    (h : e.input.drop e.pos = '\n' :: rest) : e.separator? = some 1 := by
  have hleads := separator?_leads hc h
  generalize e.separator? = found at hleads
  cases hleads with
  | single => rfl
  | plain h => exact absurd h (by decide)

theorem separator?_plain (hc : e.config = unindented) {c : Char} {rest : List Char}
    (h : e.input.drop e.pos = c :: rest) (hplain : Text.isBreak c = false) :
    e.separator? = none := by
  have hleads := separator?_leads hc h
  generalize e.separator? = found at hleads
  cases hleads with
  | pair => exact absurd hplain (by decide)
  | single h => simp [h] at hplain
  | plain => rfl

theorem atEnd_iff : e.atEnd = true ↔ e.input.drop e.pos = [] := by
  simp [atEnd]

structure Resting (text : List Char) (k : Nat) (e e' : Engine) : Prop extends
    Mirrors text k e e' where
  scannable : e.recognition = .ready ∨ e.recognition = .recognized
  lexeme_nil : e.lexeme = []
  inside : e.lineState ≠ .atLineEnd

/-- Before a line feed, where the second engine may stand behind the carriage return. -/
structure Pending (text : List Char) (k : Nat) (e e' : Engine) : Prop where
  config : e.config = unindented
  config' : e'.config = unindented
  input : e.input = text
  input' : e'.input = Text.crlf text
  ready : e.recognition = .ready
  ready' : e'.recognition = .ready
  atLineEnd : e.lineState = .atLineEnd
  atLineEnd' : e'.lineState = .atLineEnd
  feed : ∃ rest, text.drop e.pos = '\n' :: rest
  place : e'.pos = Text.crlfPlace text e.pos ∨ e'.pos = Text.crlfPlace text e.pos + 1
  line : e'.line = e.line + k

def Between (text : List Char) (k : Nat) (e e' : Engine) : Prop :=
  Resting text k e e' ∨ Pending text k e e'

theorem Resting.released (h : Resting text k e e') : Resting text k e.released e'.released where
  toMirrors := h.toMirrors.released
  scannable := by
    rcases h.scannable with hr | hr <;> simp [Engine.released, hr]
  lexeme_nil := by
    rcases h.scannable with hr | hr <;> simp [Engine.released, hr, h.lexeme_nil]
  inside := by simpa using h.inside

theorem Resting.released_ready (h : Resting text k e e') : e.released.recognition = .ready := by
  rcases h.scannable with hr | hr <;> simp [Engine.released, hr]

theorem lineBegun_waiting (hline : e.lineState = .atLineEnd) (hready : e.recognition = .ready)
    {place : Nat} (hplace : e.pos + e.separator?.getD 0 = place) :
    e.lineBegun = { e with
      pos := place, line := e.line + 1, lineStart := place, lineState := .atLineStart,
      lexeme := [] } := by
  rw [Engine.lineBegun, if_pos ⟨hline, hready⟩]
  simp only [beginLine, separator?] at hplace ⊢
  rw [hplace]

/-- Both engines pass the line feed, wherever the second has got to in its pair. -/
theorem Pending.separators (h : Pending text k e e') :
    e.separator? = some 1 ∧ e'.pos + e'.separator?.getD 0 = Text.crlfPlace text (e.pos + 1) := by
  obtain ⟨rest, hfeed⟩ := h.feed
  refine ⟨separator?_feed h.config (h.input ▸ hfeed), ?_⟩
  have hcrlf := Text.drop_crlf text e.pos
  rw [hfeed, Text.crlf_feed] at hcrlf
  have hnext : Text.crlfPlace text (e.pos + 1) = Text.crlfPlace text e.pos + 2 := by
    rw [Text.crlfPlace_add, Text.slice_add, hfeed]
    rfl
  rcases h.place with hp | hp
  · have hd' : e'.input.drop e'.pos = '\r' :: '\n' :: Text.crlf rest := by
      rw [h.input', hp, hcrlf]
    rw [separator?_pair h.config' hd', hp, hnext]
    rfl
  · have hd' : e'.input.drop e'.pos = '\n' :: Text.crlf rest := by
      rw [h.input', hp, ← List.drop_drop, hcrlf]
      rfl
    rw [separator?_feed h.config' hd', hp, hnext]
    rfl

/-- Where a line begins the places correspond again. -/
theorem Pending.lineBegun (h : Pending text k e e') :
    Resting text k e.lineBegun e'.lineBegun := by
  obtain ⟨hone, hplace⟩ := h.separators
  have hpos : e.pos + e.separator?.getD 0 = e.pos + 1 := by rw [hone, Option.getD_some]
  have hwithin : e.pos + 1 ≤ text.length := by
    obtain ⟨rest, hfeed⟩ := h.feed
    have hlength := congrArg List.length hfeed
    rw [List.length_drop, List.length_cons] at hlength
    omega
  have hline : e'.line + 1 = e.line + 1 + k := by
    rw [h.line]
    omega
  rw [lineBegun_waiting h.atLineEnd h.ready hpos, lineBegun_waiting h.atLineEnd' h.ready' hplace]
  refine ⟨⟨h.config, h.config', h.input, h.input', ?_, h.ready'.trans h.ready.symm, rfl,
    fun hne => absurd rfl hne⟩, .inl h.ready, rfl, by simp⟩
  exact ⟨hwithin, rfl, hline, rfl, Nat.le_refl _, Nat.le_refl _, by simp⟩

theorem Between.scannable (h : Between text k e e') :
    e.recognition = .ready ∨ e.recognition = .recognized := by
  rcases h with h | h
  · exact h.scannable
  · exact .inl h.ready

theorem Between.recognition (h : Between text k e e') : e'.recognition = e.recognition := by
  rcases h with h | h
  · exact h.toMirrors.recognition
  · rw [h.ready, h.ready']

theorem Between.opened (h : Between text k e e') :
    Resting text k e.opened e'.opened ∧ e.opened.recognition = .ready := by
  unfold Engine.opened
  rcases h with h | h
  · have hr := h.released
    have hinside' : e'.released.lineState ≠ .atLineEnd := by
      rw [hr.mark.lineState]
      exact hr.inside
    rw [Engine.lineBegun, Engine.lineBegun, if_neg (fun hc => hr.inside hc.1),
      if_neg (fun hc => hinside' hc.1)]
    exact ⟨hr, h.released_ready⟩
  · have hr : e.released = e := by simp [Engine.released, h.ready]
    have hr' : e'.released = e' := by simp [Engine.released, h.ready']
    rw [hr, hr']
    exact ⟨h.lineBegun, by simp [h.ready]⟩

/-- Noise without line breaks is passed. -/
theorem skipNoise_plain (hc : e.config = unindented) (hp : e.pos ≤ e.input.length)
    (hsplit : e.input.drop e.pos = line ++ s) (hline : '\n' ∉ line) (hs : LineOver s)
    (hplain : Text.hasLineBreak (line.take (noise line).1) = false) :
    e.skipNoise = e.advance (noise line).1 := by
  have hconsumed := LayoutPattern.noise_consumed hp hline hs hsplit
  have hupcoming : e.upcoming (noise line).1 = line.take (noise line).1 := by
    rw [Engine.upcoming, Text.slice_add, hsplit,
      List.take_append_of_le_length (LayoutPattern.noise_drop line).1]
  unfold Engine.skipNoise
  rw [hc, show unindented.noise = LayoutPattern.commentsAndBlanks from rfl, hconsumed]
  by_cases hzero : (noise line).1 = 0
  · simp [hzero, Engine.advance]
  · simp [hzero, hupcoming, hplain]

/-- A comment that takes the carriage return of its line counts a line too many. -/
theorem skipNoise_comment (hc : e.config = unindented) (hp : e.pos ≤ e.input.length)
    (hsplit : e.input.drop e.pos = (line ++ ['\r']) ++ s) (hline : Text.hasLineBreak line = false)
    (hs : LineOver s) (hcomment : (noise line).2 = true) :
    e.skipNoise.pos = e.pos + line.length + 1 ∧ e.skipNoise.line = e.line + 1 := by
  obtain ⟨-, hlength, hfull⟩ := LayoutPattern.noise_concat line
  rw [hcomment, if_pos rfl, hfull hcomment] at hlength
  have hfeed : '\n' ∉ line ++ ['\r'] := by simpa using Text.no_feed hline
  have hconsumed := LayoutPattern.noise_consumed hp hfeed hs hsplit
  rw [hlength, if_neg (Nat.succ_ne_zero _)] at hconsumed
  have hupcoming : e.upcoming (line.length + 1) = line ++ ['\r'] := by
    rw [Engine.upcoming, Text.slice_add, hsplit, List.take_append_of_le_length (by simp)]
    exact List.take_of_length_le (by simp)
  have hbreak : Text.hasLineBreak (line ++ ['\r']) = true := by simp [Text.hasLineBreak]
  have hends : LayoutPattern.lineSeparator.matchEnds (line ++ ['\r']) = [line.length + 1] := by
    rw [LayoutPattern.matchEnds_lineSeparator, Text.breakEnds_append 0 (by simp),
      Text.breakEnds_eq_nil 0 hline]
    simp [Text.breakEnds, Text.isBreak]
  unfold Engine.skipNoise
  rw [hc, show unindented.noise = LayoutPattern.commentsAndBlanks from rfl, hconsumed]
  simp [hupcoming, hbreak, countBreaks, Engine.advance, hc, unindented, hends]
  omega

theorem Mirrors.within (h : Mirrors text k e e') :
    e.pos ≤ e.input.length ∧ e'.pos ≤ e'.input.length := by
  refine ⟨h.input ▸ h.mark.within, ?_⟩
  rw [h.input', h.mark.pos]
  exact Text.crlfPlace_le _ _

theorem Mirrors.skipNoise_first (h : Mirrors text k e e') (hr : '\r' ∉ text) :
    e.skipNoise = e.advance (noise (Text.lineAt text e.pos)).1 := by
  obtain ⟨s, hsplit, hs, hline⟩ := Text.lineAt_split text e.pos
  exact skipNoise_plain h.config h.within.1 (h.drop hsplit hline).1 hline hs
    (Text.take_plain (Text.lineAt_plain hr _) _)

theorem Mirrors.skipNoise_last (h : Mirrors text k e e') (hr : '\r' ∉ text)
    (hend : text.drop e.pos = Text.lineAt text e.pos) :
    Mirrors text k e.skipNoise e'.skipNoise := by
  have hplain := Text.lineAt_plain hr e.pos
  have hsplit : text.drop e.pos = Text.lineAt text e.pos ++ [] := by rw [List.append_nil, hend]
  have hline := Text.no_feed hplain
  rw [h.skipNoise_first hr, skipNoise_plain h.config' h.within.2 (h.drop hsplit hline).2 hline
    (by simp [Text.crlf, LineOver]) (Text.take_plain hplain _)]
  exact h.moved hsplit hline (LayoutPattern.noise_drop _).1

theorem Mirrors.drop_feed (h : Mirrors text k e e') (hline : '\n' ∉ line) {rest : List Char}
    (hfeed : text.drop e.pos = line ++ '\n' :: rest) :
    e'.input.drop e'.pos = (line ++ ['\r']) ++ '\n' :: Text.crlf rest := by
  rw [(h.drop hfeed hline).2, Text.crlf_feed, List.append_assoc]
  rfl

theorem Mirrors.skipNoise_whole (h : Mirrors text k e e') (hr : '\r' ∉ text) {rest : List Char}
    (hfeed : text.drop e.pos = Text.lineAt text e.pos ++ '\n' :: rest)
    (hcomment : (noise (Text.lineAt text e.pos)).2 = false) :
    Mirrors text k e.skipNoise e'.skipNoise := by
  have hplain := Text.lineAt_plain hr e.pos
  have hline := Text.no_feed hplain
  have hd' := h.drop_feed hline hfeed
  rw [h.skipNoise_first hr]
  generalize Text.lineAt text e.pos = line at *
  have hle := (LayoutPattern.noise_drop line).1
  have hlen : (noise (line ++ ['\r'])).1 = (noise line).1 := by
    simpa [hcomment] using (LayoutPattern.noise_concat line).2.1
  have htake : (line ++ ['\r']).take (noise (line ++ ['\r'])).1 = line.take (noise line).1 := by
    rw [hlen, List.take_append_of_le_length hle]
  rw [skipNoise_plain h.config' h.within.2 hd' (by simpa using hline) (by simp [LineOver])
    (htake ▸ Text.take_plain hplain _), hlen]
  exact h.moved hfeed hline hle

/-- A comment takes the carriage return, and the second engine counts a line more. -/
theorem Mirrors.skipNoise_cut (h : Mirrors text k e e') (hr : '\r' ∉ text) {rest : List Char}
    (hfeed : text.drop e.pos = Text.lineAt text e.pos ++ '\n' :: rest)
    (hcomment : (noise (Text.lineAt text e.pos)).2 = true) :
    text.drop e.skipNoise.pos = '\n' :: rest ∧
      e'.skipNoise.pos = Text.crlfPlace text e.skipNoise.pos + 1 ∧
      e'.skipNoise.line = e.skipNoise.line + (k + 1) := by
  have hplain := Text.lineAt_plain hr e.pos
  have hline := Text.no_feed hplain
  have hd' := h.drop_feed hline hfeed
  rw [h.skipNoise_first hr]
  generalize Text.lineAt text e.pos = line at *
  obtain ⟨hpos, hcount⟩ :=
    skipNoise_comment h.config' h.within.2 hd' hplain (by simp [LineOver]) hcomment
  have hmoved := h.moved hfeed hline (Nat.le_refl _)
  rw [(LayoutPattern.noise_concat line).2.2 hcomment]
  refine ⟨?_, ?_, ?_⟩
  · show text.drop (e.pos + line.length) = _
    rw [← List.drop_drop, hfeed, List.drop_left]
  · rw [hpos, ← hmoved.mark.pos]
    rfl
  · rw [hcount, h.mark.line]
    exact Nat.add_assoc _ _ _

/-- Behind noise the places correspond, unless a comment has taken the carriage return. -/
theorem Mirrors.skipNoise (h : Mirrors text k e e') (hr : '\r' ∉ text) :
    if Text.commentAt text e.pos then
      (∃ rest, text.drop e.skipNoise.pos = '\n' :: rest) ∧
        e'.skipNoise.pos = Text.crlfPlace text e.skipNoise.pos + 1 ∧
        e'.skipNoise.line = e.skipNoise.line + (k + 1)
    else Mirrors text k e.skipNoise e'.skipNoise := by
  obtain ⟨s, hsplit, hs, -⟩ := Text.lineAt_split text e.pos
  rcases hs.cases with rfl | ⟨rest, rfl⟩
  · rw [List.append_nil] at hsplit
    rw [Text.commentAt_end hsplit, if_neg Bool.false_ne_true]
    exact h.skipNoise_last hr hsplit
  · rw [Text.commentAt_feed hsplit]
    cases hcomment : (noise (Text.lineAt text e.pos)).2 with
    | true =>
      obtain ⟨hrest, hplace, hline⟩ := h.skipNoise_cut hr hsplit hcomment
      exact ⟨⟨rest, hrest⟩, hplace, hline⟩
    | false => exact h.skipNoise_whole hr hsplit hcomment

structure Body (text : List Char) (k : Nat) (e e' : Engine) : Prop extends
    Resting text k e e' where
  noiseless : LayoutPattern.piece? (Text.lineAt text e.pos) = none
  char : ∃ c rest, text.drop e.pos = c :: rest ∧ Text.isBreak c = false

/-- How a layout step can end for both engines. -/
inductive Layouts (text : List Char) (k : Nat) : Option Outcome → Engine → Engine → Prop where
  | ended {e e' : Engine} (h : Mirrors text k e e') (hd : e.recognition = .done) :
      Layouts text k (some .endOfStream) e e'
  | pending {e e' : Engine} (h : Pending text k e e') : Layouts text k (some .lineEnd) e e'
  | body {e e' : Engine} (h : Body text k e e') : Layouts text k none e e'

def comments (e : Engine) : Nat := if Text.commentAt e.input e.opened.pos then 1 else 0

theorem lineEnded_line (n : Nat) (e : Engine) : (e.lineEnded n).line = e.line := by
  unfold lineEnded
  dsimp only
  split <;> rfl

theorem scanLayout_reports (hc : e.config = unindented) (hscan : e.Scannable) :
    scanLayout e = reportEnd e.opened.skipNoise := by
  have hindent : e.opened.indentation? = none := by simp [indentation?, hc, unindented]
  have hu : e.opened.skipNoise.Unclaimed := by simpa [Unclaimed] using opened_unclaimed hscan
  rw [scanLayout_eq hscan, hindent, reportEnd_eq hu]

theorem reportEnd_nil (hu : e.Unclaimed) (hd : e.input.drop e.pos = []) :
    reportEnd e = .ok (some .endOfStream) e.ended := by
  rw [reportEnd_eq hu, if_pos (atEnd_iff.mpr hd)]

theorem reportEnd_cons (hu : e.Unclaimed) {c : Char} {rest : List Char}
    (hd : e.input.drop e.pos = c :: rest) :
    reportEnd e = match e.separator? with
      | none => .ok none e
      | some n => .ok (some .lineEnd) (e.lineEnded n) := by
  have hend : ¬ e.atEnd = true := by
    rw [atEnd_iff, hd]
    exact List.cons_ne_nil c rest
  exact (reportEnd_eq hu).trans (if_neg hend)

/-- Two engines that report a line end wait before it. -/
theorem reportEnd_pending (hc : e.config = unindented) (hc' : e'.config = unindented)
    (hi : e.input = text) (hi' : e'.input = Text.crlf text) (hready : e.recognition = .ready)
    (hready' : e'.recognition = .ready) {rest : List Char} (hfeed : text.drop e.pos = '\n' :: rest)
    (hplace : e'.pos = Text.crlfPlace text e.pos ∨ e'.pos = Text.crlfPlace text e.pos + 1)
    (hline : e'.line = e.line + k) :
    ∃ e₁ e₁', reportEnd e = .ok (some .lineEnd) e₁ ∧ reportEnd e' = .ok (some .lineEnd) e₁' ∧
      Pending text k e₁ e₁' := by
  have hd : e.input.drop e.pos = '\n' :: rest := hi ▸ hfeed
  have hcrlf := Text.drop_crlf text e.pos
  rw [hfeed, Text.crlf_feed] at hcrlf
  obtain ⟨c, ahead, n, hd', hn⟩ : ∃ c ahead n, e'.input.drop e'.pos = c :: ahead ∧
      e'.separator? = some n := by
    rcases hplace with hp | hp
    · have hd' : e'.input.drop e'.pos = '\r' :: '\n' :: Text.crlf rest := by rw [hi', hp, hcrlf]
      exact ⟨_, _, 2, hd', separator?_pair hc' hd'⟩
    · have hd' : e'.input.drop e'.pos = '\n' :: Text.crlf rest := by
        rw [hi', hp, ← List.drop_drop, hcrlf]
        rfl
      exact ⟨_, _, 1, hd', separator?_feed hc' hd'⟩
  refine ⟨e.lineEnded 1, e'.lineEnded n, ?_, ?_, ?_⟩
  · rw [reportEnd_cons (.inl hready) hd, separator?_feed hc hd]
  · rw [reportEnd_cons (.inl hready') hd', hn]
  · constructor
    · simpa using hc
    · simpa using hc'
    · simpa using hi
    · simpa using hi'
    · simpa using hready
    · simpa using hready'
    · simp
    · simp
    · exact ⟨rest, by simpa using hfeed⟩
    · simpa using hplace
    · rw [lineEnded_line, lineEnded_line]
      exact hline

theorem Resting.reportEnd (h : Resting text k e e') (hready : e.recognition = .ready)
    (hr : '\r' ∉ text) (hnoise : LayoutPattern.piece? (Text.lineAt text e.pos) = none) :
    ∃ o e₁ e₁', Engine.reportEnd e = .ok o e₁ ∧ Engine.reportEnd e' = .ok o e₁' ∧
      Layouts text k o e₁ e₁' := by
  have hready' : e'.recognition = .ready := h.recognition.trans hready
  obtain ⟨hde, hde'⟩ := h.here
  cases hd : text.drop e.pos with
  | nil =>
    rw [hd] at hde hde'
    refine ⟨_, _, _, reportEnd_nil (.inl hready) hde, reportEnd_nil (.inl hready') hde',
      .ended h.ended ?_⟩
    simp [Engine.ended, hready]
  | cons c rest =>
    rw [hd] at hde hde'
    by_cases hfeed : c = '\n'
    · subst hfeed
      obtain ⟨e₁, e₁', he, he', hpending⟩ := reportEnd_pending h.config h.config' h.input h.input'
        hready hready' hd (.inl h.mark.pos) h.mark.line
      exact ⟨_, _, _, he, he', .pending hpending⟩
    · have hreturn : c ≠ '\r' := by
        rintro rfl
        exact hr (List.mem_of_mem_drop (hd ▸ List.mem_cons_self))
      have hplain : Text.isBreak c = false := by simp [Text.isBreak, hfeed, hreturn]
      rw [Text.crlf_cons hfeed] at hde'
      refine ⟨none, e, e', ?_, ?_, .body ⟨h, hnoise, c, rest, hd, hplain⟩⟩
      · rw [reportEnd_cons (.inl hready) hde, separator?_plain h.config hde hplain]
      · rw [reportEnd_cons (.inl hready') hde', separator?_plain h.config' hde' hplain]

theorem Between.scannable_both (h : Between text k e e') : e.Scannable ∧ e'.Scannable := by
  have hs := h.scannable
  constructor
  · exact hs.imp_right .inr
  · unfold Scannable
    rw [h.recognition]
    exact hs.imp_right .inr

/-- The layout step ends in the same way for both engines, the second some lines further down if
there was a comment to the end of the line. -/
theorem Between.scanLayout (h : Between text k e e') (hr : '\r' ∉ text) :
    ∃ o e₁ e₁', Engine.scanLayout e = .ok o e₁ ∧ Engine.scanLayout e' = .ok o e₁' ∧
      Layouts text (k + e.comments) o e₁ e₁' := by
  obtain ⟨hopened, hready⟩ := h.opened
  obtain ⟨hscan, hscan'⟩ := h.scannable_both
  have hconfig : e.config = unindented := by simpa using hopened.config
  have hconfig' : e'.config = unindented := by simpa using hopened.config'
  have hinput : e.input = text := by simpa using hopened.input
  have hnoise := hopened.toMirrors.skipNoise hr
  have hskipped : e.opened.skipNoise.recognition = .ready := by simpa using hready
  rw [scanLayout_reports hconfig hscan, scanLayout_reports hconfig' hscan']
  unfold comments
  rw [hinput]
  cases hcomment : Text.commentAt text e.opened.pos with
  | true =>
    rw [hcomment, if_pos rfl] at hnoise
    obtain ⟨⟨rest, hfeed⟩, hplace, hline⟩ := hnoise
    have hready' : e'.opened.recognition = .ready := hopened.recognition.trans hready
    have hskipped' : e'.opened.skipNoise.recognition = .ready := by simpa using hready'
    have hbehind : e.opened.skipNoise.config = unindented ∧
        e'.opened.skipNoise.config = unindented := ⟨by simpa using hconfig, by simpa using hconfig'⟩
    obtain ⟨e₁, e₁', he, he', hpending⟩ := reportEnd_pending hbehind.1 hbehind.2
      (by simpa using hinput) (by simpa using hopened.input') hskipped hskipped' hfeed
      (.inr hplace) hline
    exact ⟨_, _, _, he, he', .pending hpending⟩
  | false =>
    rw [hcomment, if_neg Bool.false_ne_true] at hnoise
    rw [if_neg Bool.false_ne_true, Nat.add_zero]
    refine Resting.reportEnd ⟨hnoise, .inl hskipped, ?_, ?_⟩ hskipped hr ?_
    · simpa using hopened.lexeme_nil
    · simpa using hopened.inside
    · -- what is left of the line behind its noise
      obtain ⟨hle, hnone⟩ := LayoutPattern.noise_drop (Text.lineAt text e.opened.pos)
      have hrest := Text.lineAt_add hle
      have hplace : e.opened.skipNoise.pos =
          e.opened.pos + (noise (Text.lineAt text e.opened.pos)).1 :=
        congrArg (·.pos) (hopened.toMirrors.skipNoise_first hr)
      rw [hplace, hrest]
      exact hnone

theorem skipNoise_self (h : e.skipNoise.pos = e.pos) : e.skipNoise = e := by
  rw [skipNoise_pos] at h
  unfold Engine.skipNoise
  cases hn : e.config.noise.consumedAt? e.input e.pos with
  | none => rfl
  | some n =>
    have hpos := (Pattern.consumedAt?_within hn).1
    rw [hn] at h
    simp only [Option.getD_some] at h
    omega

theorem Body.released (h : Body text k e e') : Body text k e.released e'.released where
  toResting := h.toResting.released
  noiseless := by simpa using h.noiseless
  char := by simpa using h.char

theorem Body.ahead (h : Body text k e e') (hr : '\r' ∉ text) :
    ∃ line s, text.drop e.pos = line ++ s ∧ Text.hasLineBreak line = false ∧ LineOver s ∧
      1 ≤ line.length := by
  obtain ⟨c, rest, hd, hc⟩ := h.char
  obtain ⟨s, hsplit, hs, -⟩ := Text.lineAt_split text e.pos
  refine ⟨_, s, hsplit, Text.lineAt_plain hr _, hs, ?_⟩
  have hne : c ≠ '\n' := by
    rintro rfl
    simp [Text.isBreak] at hc
  simp [Text.lineAt, hd, hne]

theorem Body.before (h : Body text k e e') :
    ∃ c rest, e.input.drop e.pos = c :: rest ∧ e'.input.drop e'.pos = c :: Text.crlf rest ∧
      Text.isBreak c = false := by
  obtain ⟨c, rest, hd, hc⟩ := h.char
  have hne : c ≠ '\n' := by
    rintro rfl
    simp [Text.isBreak] at hc
  obtain ⟨hde, hde'⟩ := h.here
  rw [hd] at hde hde'
  rw [Text.crlf_cons hne] at hde'
  exact ⟨c, rest, hde, hde', hc⟩

theorem Body.scanLayout (h : Body text k e e') (hr : '\r' ∉ text) :
    Engine.scanLayout e = .ok none e.released ∧ Engine.scanLayout e' = .ok none e'.released := by
  obtain ⟨hscan, hscan'⟩ := Between.scannable_both (.inl h.toResting)
  have hrel := h.released
  have hready := h.toResting.released_ready
  have hopened : e.opened = e.released := by
    rw [Engine.opened, Engine.lineBegun, if_neg fun hc => hrel.inside hc.1]
  have hopened' : e'.opened = e'.released := by
    rw [Engine.opened, Engine.lineBegun, if_neg fun hc => hrel.inside (hrel.mark.lineState ▸ hc.1)]
  have hzero : noise (Text.lineAt text e.released.pos) = (0, false) :=
    LayoutPattern.noise_none hrel.noiseless
  have hmirrors := hrel.toMirrors.skipNoise hr
  have hskip : e.released.skipNoise = e.released := by
    rw [hrel.toMirrors.skipNoise_first hr, hzero]
    rfl
  rw [Text.commentAt, hzero, Bool.false_and, if_neg Bool.false_ne_true, hskip] at hmirrors
  have hskip' : e'.released.skipNoise = e'.released :=
    skipNoise_self (hmirrors.mark.pos.trans hrel.mark.pos.symm)
  obtain ⟨c, rest, hde, hde', hc⟩ := hrel.before
  constructor
  · rw [scanLayout_reports h.config hscan, hopened, hskip, reportEnd_cons (.inl hready) hde,
      separator?_plain hrel.config hde hc]
  · rw [scanLayout_reports h.config' hscan', hopened', hskip',
      reportEnd_cons (.inl (hrel.recognition.trans hready)) hde',
      separator?_plain hrel.config' hde' hc]

structure Taken (text : List Char) (k : Nat) (e e' : Engine) : Prop extends
    Mirrors text k e e' where
  recognized : e.recognition = .recognized
  inside : e.lineState ≠ .atLineEnd

theorem Body.scan (h : Body text k e e') (hr : '\r' ∉ text) {p : Pattern} (hp : p.Plain)
    (hfree : p.LookFree) :
    ∃ o e₁ e₁', Engine.scan p e = .ok o e₁ ∧ Engine.scan p e' = .ok o e₁' ∧
      (o = none ∧ Body text k e₁ e₁' ∨ o = some .token ∧ Taken text k e₁ e₁') := by
  obtain ⟨hlayout, hlayout'⟩ := h.scanLayout hr
  have hrel := h.released
  have hready := h.toResting.released_ready
  have hready' := hrel.recognition.trans hready
  obtain ⟨line, s, hsplit, hline, hs, -⟩ := hrel.ahead hr
  obtain ⟨hd, hd'⟩ := hrel.drop hsplit (Text.no_feed hline)
  have hwithin : e.released.pos ≤ e.released.input.length := by
    rw [hrel.input]
    exact hrel.mark.within
  have hwithin' : e'.released.pos ≤ e'.released.input.length := by
    rw [hrel.input', hrel.mark.pos]
    exact Text.crlfPlace_le _ _
  have hbreak : Text.AtBreak s := by
    intro c hc
    rw [hs c hc]
    rfl
  have hbreak' : Text.AtBreak (Text.crlf s) := by
    rcases hs.cases with rfl | ⟨rest, rfl⟩
    · simp [Text.AtBreak, Text.crlf]
    · rw [Text.crlf_feed]
      simp [Text.AtBreak, Text.isBreak]
  have hsame := hp.matchAt?_eq hfree hwithin hwithin' hd hd' hbreak hbreak'
  have hinside' : e'.released.lineState ≠ .atLineEnd := by
    rw [hrel.mark.lineState]
    exact hrel.inside
  rw [scan_eq p hlayout, scan_eq p hlayout']
  dsimp only
  rw [tryPattern_eq p (.inl hready), tryPattern_eq p (.inl hready'), ← hsame]
  cases hm : p.matchAt? e.released.input e.released.pos with
  | none => exact ⟨none, _, _, rfl, rfl, .inl ⟨rfl, hrel⟩⟩
  | some n =>
    have hle := hp.match_le hd hbreak hm
    dsimp only
    rw [if_neg hrel.inside, if_neg hinside']
    have htaken := hrel.toMirrors.tokenTaken hsplit hline hle p
    exact ⟨_, _, _, rfl, rfl, .inr ⟨rfl, htaken, rfl, by simp [Engine.tokenTaken]⟩⟩

theorem Body.nextChar (h : Body text k e e') (hr : '\r' ∉ text) :
    ∃ c e₁ e₁', Engine.nextChar e = .ok (some c) e₁ ∧ Engine.nextChar e' = .ok (some c) e₁' ∧
      Mirrors text k e₁ e₁' ∧ e₁.recognition = .tokenizing ∧ e₁.lineState ≠ .atLineEnd := by
  obtain ⟨hscan, hscan'⟩ := Between.scannable_both (.inl h.toResting)
  obtain ⟨line, s, hsplit, hline, -, hn⟩ := h.ahead hr
  obtain ⟨c, rest, hde, hde', hc⟩ := h.before
  have hget : e.input[e.pos]? = some c := by rw [← List.head?_drop, hde, List.head?_cons]
  have hget' : e'.input[e'.pos]? = some c := by rw [← List.head?_drop, hde', List.head?_cons]
  have hinside' : e'.lineState ≠ .atLineEnd := by
    rw [h.mark.lineState]
    exact h.inside
  refine ⟨c, e.released.charTaken, e'.released.charTaken, ?_, ?_, ?_, rfl,
    by simp [Engine.charTaken]⟩
  · rw [nextChar_eq hscan, hget, separator?_plain h.config hde hc]
    exact if_neg h.inside
  · rw [nextChar_eq hscan', hget', separator?_plain h.config' hde' hc]
    exact if_neg hinside'
  · exact h.toMirrors.released.charTaken (by simpa using hsplit) (Text.no_feed hline) hn

theorem Mirrors.queued (h : Mirrors text k e e')
    (hs : e.recognition = .ready ∨ e.recognition = .recognized)
    (hinside : e.lineState ≠ .atLineEnd) :
    Resting text k e.recognizedNow.clearLexeme e'.recognizedNow.clearLexeme where
  toMirrors := h.recognizedNow.clearLexeme
  scannable := by
    right
    rcases hs with hs | hs <;> simp [Engine.recognizedNow, Unclaimed, hs, Engine.clearLexeme]
  lexeme_nil := rfl
  inside := by
    rw [(queued_samePlace e).mark]
    exact hinside

theorem Body.queued (h : Body text k e e') :
    Body text k e.recognizedNow.clearLexeme e'.recognizedNow.clearLexeme where
  toResting := h.toMirrors.queued h.scannable h.inside
  noiseless := by
    rw [(queued_samePlace e).mark]
    exact h.noiseless
  char := by
    rw [(queued_samePlace e).mark]
    exact h.char

theorem Mirrors.restedResting (h : Mirrors text k e e')
    (hs : e.recognition = .tokenizing ∨ e.recognition = .failed)
    (hinside : e.lineState ≠ .atLineEnd) : Resting text k e.rested e'.rested where
  toMirrors := h.rested
  scannable := by
    left
    rcases hs with hs | hs <;> simp [Engine.rested, hs]
  lexeme_nil := by rcases hs with hs | hs <;> simp [Engine.rested, hs]
  inside := by
    rw [(rested_samePlace e).mark]
    exact hinside

end Engine
end TableLexer
