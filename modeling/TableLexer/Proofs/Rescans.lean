import TableLexer.Proofs.Engine.Lexemes
import TableLexer.Proofs.Partition

/-!
# Scanning again

A scan that fails is not without effect: it lets go of the last token, begins a new line and skips
noise. What was scanned can be put back, but these effects stay. Neither makes a difference to
the scans that follow, if noise settles: the layout was dealt with, and where it was dealt with
there is nothing more to do.
-/
namespace TableLexer

namespace Engine

variable {e e₁ e₂ : Engine} {p : Pattern} {n : Nat}

/-- A layout step that reported nothing leaves nothing to another. -/
theorem LaidOut.again (hc : e.config.NoiseSettles) (hs : e.Scannable) (h : LaidOut e none e₁) :
    scanLayout e₁ = .ok none e₁ := (h.steady hc).scanLayout_again hs h

theorem scan_missed (h : scan p e = .ok none e₁) : e.Scannable ∧ LaidOut e none e₁ := by
  obtain ⟨hs, hscan⟩ := scan_cases h
  cases hscan with
  | miss hl => exact ⟨hs, hl⟩

/-- Behind a failed scan every scan comes out as before it. -/
theorem scan_behind_missed (hc : e.config.NoiseSettles) (h : scan p e = .ok none e₁)
    (q : Pattern) : scan q e₁ = scan q e := by
  obtain ⟨hs, hl⟩ := scan_missed h
  rw [scan_eq q (hl.again hc hs), scan_eq q (scanLayout_eq_ok_iff.mpr ⟨hs, hl⟩)]

end Engine

namespace Rule

open Lexer

/-- Handlers whose patterns are not found make no difference to those behind them; the induction
is on these handlers. -/
theorem firstScanned_missed {l : Lexer} (hc : l.engine.config.NoiseSettles)
    {missed : List Handler}
    (hm : ∀ m ∈ missed, ∃ e, Engine.scan m.pattern l.engine = .ok none e)
    (h : Handler) (rest : List Handler) :
    firstScanned (missed ++ h :: rest) l = firstScanned (h :: rest) l := by
  induction missed generalizing l with
  | nil => rfl
  | cons first others ih =>
    obtain ⟨⟨e, hscan⟩, hothers⟩ := List.forall_mem_cons.mp hm
    have hagain := Engine.scan_behind_missed hc hscan
    have hconfig := (Engine.scan_missed hscan).2.sameText.config
    have hfirst : scanToken first.pattern l = .ok false { l with engine := e } := by
      simp [scanToken, onEngine, hscan]
    have hnext : scanToken h.pattern { l with engine := e } = scanToken h.pattern l := by
      simp only [scanToken, onEngine, Program.bind_apply, hagain]
    calc firstScanned (first :: others ++ h :: rest) l
        = firstScanned (others ++ h :: rest) { l with engine := e } := by
          rw [List.cons_append, firstScanned, Program.bind_apply, hfirst]
          rfl
      _ = firstScanned (h :: rest) { l with engine := e } := by
          refine ih (l := { l with engine := e }) (hconfig ▸ hc) fun m hmem => ?_
          rw [hagain]
          exact hothers m hmem
      _ = firstScanned (h :: rest) l := by
          simp only [firstScanned, Program.bind_apply, hnext]

end Rule

namespace Engine

/-- A failed scan is invisible to the scans behind it: each comes out as if it had been made
instead, with the same engine. So the handlers of a look-ahead rule that are not found never
change which of the others is, nor what it leaves. -/
theorem failed_scan_invisible {e : Engine} (hc : e.config.NoiseSettles) :
    (∀ p e₁, scan p e = .ok none e₁ → ∀ q, scan q e₁ = scan q e) ∧
    ∀ (l : Lexer) (missed : List Handler) (h : Handler) (rest : List Handler), l.engine = e →
      (∀ m ∈ missed, ∃ e₁, scan m.pattern e = .ok none e₁) →
      Rule.firstScanned (missed ++ h :: rest) l = Rule.firstScanned (h :: rest) l := by
  refine ⟨fun p e₁ hscan q => scan_behind_missed hc hscan q, ?_⟩
  rintro l missed h rest rfl hm
  exact Rule.firstScanned_missed hc hm h rest

/-- A failed scan at the end of a line lets go of the token, begins the next line and skips the
noise in front of a token that is then found. -/
theorem failed_scan_begins_line :
    let e := (new {}).after [.setInput ['a', '\n', '#', 'a', '\n', '/', '*', '*', '/', 'b'],
      .scan (.char 'a'), .scanLayout, .scanLayout, .markRecognized]
    let e₁ := e.next (.scan (.char 'c'))
    (e.recognition = .recognized ∧ e.pos = 4 ∧ e.line = 2 ∧ e.lineState = .atLineEnd) ∧
      (e₁.recognition = .ready ∧ e₁.pos = 9 ∧ e₁.line = 3 ∧ e₁.lineState = .atLineStart) ∧
      scan (.char 'c') e = .ok none e₁ ∧ scan (.char 'b') e₁ = scan (.char 'b') e ∧
      Rule.firstScanned [⟨.char 'c', .clear⟩, ⟨.char 'b', .putBack⟩]
          { Rule.reading [] with engine := e } =
        Rule.firstScanned [⟨.char 'b', .putBack⟩] { Rule.reading [] with engine := e } := by
  intro e e₁
  have hstate : (e.recognition = .recognized ∧ e.pos = 4 ∧ e.line = 2 ∧ e.lineState = .atLineEnd) ∧
      (e₁.recognition = .ready ∧ e₁.pos = 9 ∧ e₁.line = 3 ∧ e₁.lineState = .atLineStart) := by
    decide +kernel
  have hscan : scan (.char 'c') e = .ok none e₁ := Program.eq_ok_of_value? (by decide +kernel)
  have hconfig : e.config = {} := after_config (new {}) _
  clear_value e₁ e
  obtain ⟨hscans, hhandlers⟩ := failed_scan_invisible (hconfig ▸ EngineConfig.default_settles)
  refine ⟨hstate.1, hstate.2, hscan, hscans _ _ hscan _, ?_⟩
  exact hhandlers _ [⟨.char 'c', .clear⟩] _ [] rfl (by simpa using ⟨e₁, hscan⟩)

variable {e e₁ e₂ : Engine} {p : Pattern} {n : Nat}

/-- A scan from between tokens matches where there is no lexeme. -/
theorem LaidOut.between (hi : e.Idle) (hr : e.recognition = .ready ∨ e.recognition = .recognized)
    (h : LaidOut e none e₁) : e₁.lexeme = [] ∧ e₁.recognition = .ready := by
  have hready := opened_ready hr
  cases h
  simpa [hready] using hi.opened_lexeme hready

theorem undone_recognized (hx : e.lexeme ≠ []) (hr : e.recognition = .recognized) :
    e.undone = { e with toMark := e.anchor, lexeme := [], recognition := .ready } := by
  simp [undone, rested, hx, hr]

/-- Putting a token back leaves the engine as it was before the match, but for the anchor. -/
theorem tokenTaken_undone (hx : e.lexeme = []) (hr : e.recognition = .ready)
    (hn : e.upcoming n ≠ []) :
    (e.tokenTaken p n).undone = { e with anchor := e.toMark } := by
  obtain ⟨hconfig, hinput, -, -, -, hlexeme, hanchor⟩ := takeMatch_text p n e
  rw [hx, List.nil_append] at hlexeme
  rw [hx, List.isEmpty_nil, if_pos rfl] at hanchor
  have hsnapshots := tokenTaken_snapshots p n e
  have hne : (e.tokenTaken p n).lexeme ≠ [] := fun hnil => hn (hlexeme.symm.trans hnil)
  rw [undone_recognized hne rfl]
  simp only [tokenTaken] at hsnapshots ⊢
  simp only [hconfig, hinput, hanchor, hsnapshots, hx, hr]

/-- A match does not depend on where an anchor was left while there is no lexeme. -/
theorem tokenTaken_anchor (hx : e.lexeme = []) (m : Mark) :
    ({ e with anchor := m } : Engine).tokenTaken p n = e.tokenTaken p n := by
  simp [tokenTaken, takeMatch, takeChars, pushLexeme, advance, countBreaks, upcoming, hx]

theorem LaidOut.body_ahead (h : LaidOut e none e₁) :
    e₁.atEnd = false ∧ e₁.separator? = none := by
  cases h with
  | body _ he hp => exact ⟨he, hp⟩

theorem scanLayout_anchor (h : scanLayout e = .ok none e) (m : Mark) :
    scanLayout { e with anchor := m } = .ok none { e with anchor := m } := by
  obtain ⟨hs, hl⟩ := scanLayout_eq_ok_iff.mp h
  obtain ⟨hu, hnoise, hindent, -⟩ := hl.fixed hs rfl
  have hopened := hl.opened_eq_self hs
  have hline : e.recognition = .ready → e.lineState ≠ .atLineEnd := by
    have := opened_lineState (e := e)
    rwa [hopened] at this
  obtain ⟨hend, hsep⟩ := hl.body_ahead
  have hopened' : ({ e with anchor := m } : Engine).opened = { e with anchor := m } :=
    Engine.opened_eq_self hu hline
  have hquiet : ({ e with anchor := m } : Engine).skipNoise = { e with anchor := m } :=
    skipNoise_eq_self hnoise
  have hbody := LaidOut.body (e := { e with anchor := m })
  rw [hopened', hquiet] at hbody
  exact scanLayout_eq_ok_iff.mpr ⟨hs, hbody (hindent hsep) hend hsep⟩

/-- Putting back is an exact inverse of scanning, from between tokens and for noise that settles.
After the layout step, which is not undone, a token with a lexeme can be put back: there is no
lexeme then, and the place and the line are those before the match. The same scan then leads to
the very same engine. -/
theorem undoScan_inverts_scan {config : EngineConfig} (hc : config.NoiseSettles)
    {commands : List Command} (he : e = (new config).after commands)
    (hr : e.recognition = .ready ∨ e.recognition = .recognized)
    (hscan : scan p e = .ok (some .token) e₂) (hx : e₂.lexeme ≠ []) :
    ∃ e₁ n e₃, scanLayout e = .ok none e₁ ∧ p.matchAt? e₁.input e₁.pos = some n ∧
      e₂.lexeme = e₁.upcoming n ∧ undoScan e₂ = .ok () e₃ ∧
      e₃.lexeme = [] ∧ e₃.recognition = .ready ∧ e₃.toMark = e₁.toMark ∧
      scan p e₃ = .ok (some .token) e₂ := by
  have hconfig : e.config = config := he ▸ after_config (new config) commands
  have hidle : e.Idle := he ▸ (after_recorded (new_recorded config) commands).current.between
  obtain ⟨hs, hscanned⟩ := scan_cases hscan
  cases hscanned with
  | layout hl => cases hl
  | @token e₁ n hl hm hline =>
    obtain ⟨hnone, hready⟩ := hl.between hidle hr
    have hlexeme : (e₁.tokenTaken p n).lexeme = e₁.upcoming n := by simp [tokenTaken, hnone]
    have hagain := hl.again (hconfig ▸ hc) hs
    have hundone := tokenTaken_undone (p := p) hnone hready (hlexeme ▸ hx)
    refine ⟨e₁, n, _, scanLayout_eq_ok_iff.mpr ⟨hs, hl⟩, hm, hlexeme, undoScan_eq _, ?_⟩
    rw [hundone]
    refine ⟨hnone, hready, rfl, ?_⟩
    have hu : ({ e₁ with anchor := e₁.toMark } : Engine).Unclaimed := .inl hready
    rw [scan_eq p (scanLayout_anchor hagain e₁.toMark)]
    simp only [tryPattern_eq p hu, hm, if_neg hline, tokenTaken_anchor hnone]

/-- At the end of a line: the scan begins the next line and skips a comment, none of which is
undone, and takes a token across the end of that line, which is. -/
theorem token_across_lines_put_back :
    let p : Pattern := .literal "b\nc"
    let e := (new {}).after [.setInput ['a', '\n', '/', '*', '*', '/', 'b', '\n', 'c'],
      .scan (.char 'a'), .scanLayout]
    let e₂ := e.next (.scan p)
    (e.recognition = .ready ∧ e.toMark = ⟨1, 1, 0, .atLineEnd⟩) ∧
      (e₂.toMark = ⟨9, 3, 8, .inLineBody⟩ ∧ e₂.lexeme ≠ []) ∧
      (Program.final (undoScan e₂)).toMark = ⟨6, 2, 2, .atLineStart⟩ ∧
      scan p e = .ok (some .token) e₂ ∧
      ∃ e₃, undoScan e₂ = .ok () e₃ ∧ scan p e₃ = .ok (some .token) e₂ := by
  intro p e e₂
  have hr : e.recognition = .ready ∧ e.toMark = ⟨1, 1, 0, .atLineEnd⟩ := by decide +kernel
  have hx : e₂.toMark = ⟨9, 3, 8, .inLineBody⟩ ∧ e₂.lexeme ≠ [] := by decide +kernel
  have hscan : scan p e = .ok (some .token) e₂ := Program.eq_ok_of_value? (by decide +kernel)
  obtain ⟨-, -, e₃, -, -, -, hundo, -, -, -, hagain⟩ :=
    undoScan_inverts_scan EngineConfig.default_settles rfl (.inl hr.1) hscan hx.2
  exact ⟨hr, hx, by decide +kernel, hscan, e₃, hundo, hagain⟩

end Engine
end TableLexer
