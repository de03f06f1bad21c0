import TableLexer.Proofs.Engine.Marks
import TableLexer.Proofs.Engine.Progress
import TableLexer.Proofs.LineBreaks

/-!
# The two state machines together

The tables of the two machines say nothing about each other, nor about the text. What ties them
together holds of every engine that commands lead to, provided noise starts apart from
separators: at a line end there is a separator, a token in progress is in the body of a line or
has come to its end, and between tokens there is no lexeme but a separator that is shown. So no
operation ever asks a machine for an event that it refuses.
-/
namespace TableLexer

namespace Mark

def Backed (config : EngineConfig) (text : List Char) (m : Mark) : Prop :=
  m.lineState = .atLineEnd → (config.eol.consumedAt? text m.pos).isSome

theorem origin_backed (config : EngineConfig) (text : List Char) :
    origin.Backed config text := by simp [Backed, origin]

theorem backed_stable {config : EngineConfig} (h : config.Apart) (text : List Char)
    (ends : Nat → Prop) : Stable config text ends (Backed config text) where
  pending hm := hm
  kept := by
    intro m m' hm hmove hend
    cases hmove with
    | turn s hs => exact hs hend
    | separator => simp at hend
    | noise hn =>
      -- noise was there, so no separator was, and the mark cannot have been at a line end
      have hnone := h text m.pos (hm hend)
      simp [hn] at hnone
    | indentation _ _ hl => simp [passed, hl] at hend
    | char _ _ hl => exact absurd hend hl
    | token _ _ hl => exact absurd hend hl

end Mark

namespace Engine

/-- A scan that has come to a line end stands before a separator, whatever the commands were. -/
theorem after_backed {config : EngineConfig} (h : config.Apart) (commands : List Command) :
    ((new config).after commands).Holds
      (Mark.Backed config ((new config).after commands).input) :=
  after_holds (P := Mark.Backed config) (fun text => Mark.backed_stable h text _)
    (Mark.origin_backed config) (new_holds config (Mark.origin_backed config))
    (tokensEnd_anywhere _ commands)

end Engine

/-- How the two machines go together in a scan. -/
structure Scan.Paired (config : EngineConfig) (text : List Char) (s : Scan) : Prop where
  in_token : s.recognition = .tokenizing →
    s.lineState = .inLineBody ∨ s.lineState = .atLineEnd
  between : s.recognition = .ready → s.lexeme ≠ [] → s.lineState = .atLineEnd ∧
    ∃ n, config.eol.consumedAt? text s.pos = some n ∧
      s.lexeme = Text.slice text s.pos (s.pos + n)

/-- Where no lexeme is left and no token is in progress, the machines go together. -/
theorem Scan.paired_of_idle {config : EngineConfig} {text : List Char} {s : Scan}
    (ht : s.recognition ≠ .tokenizing) (hl : s.recognition = .ready → s.lexeme = []) :
    s.Paired config text :=
  ⟨fun h => absurd h ht, fun h hne => absurd (hl h) hne⟩

namespace Engine

variable {e e' : Engine}

theorem lineEnded_lexeme (n : Nat) (h : e.recognition = .ready) :
    (e.lineEnded n).lexeme = (e.lineEnded n).upcoming n := by
  simp only [lineEnded, h, ↓reduceIte, showSeparator, clearLexeme, pushLexeme, List.nil_append]
  rfl

theorem LaidOut.paired (h : e.toScan.Paired e.config e.input) {o : Option Outcome}
    (hl : LaidOut e o e') : e'.toScan.Paired e.config e.input := by
  have hidle : e.Idle := fun hr hx => (h.between hr hx).1
  have hbody : e.opened.skipNoise.recognition = .tokenizing →
      e.opened.skipNoise.lineState = .inLineBody ∨
        e.opened.skipNoise.lineState = .atLineEnd := by
    intro ht
    have ht : e.opened.recognition = .tokenizing := by simpa using ht
    have heq := opened_of_tokenizing ht
    rw [heq] at ht ⊢
    simpa using h.in_token ht
  cases hl with
  | indentation => exact Scan.paired_of_idle (by simp [indented]) (by simp [indented])
  | endOfStream =>
    apply Scan.paired_of_idle <;> simp only [ended] <;> split <;> simp
  | @lineEnd n _ _ hs =>
    constructor
    · intro _
      exact .inr (lineEnded_text n _).2.2.2.2
    · intro hr _
      have hr : e.opened.skipNoise.recognition = .ready := by simpa using hr
      refine ⟨(lineEnded_text n _).2.2.2.2, n, ?_, ?_⟩
      · simpa [separator?] using hs
      · simpa [upcoming] using lineEnded_lexeme n hr
  | body =>
    refine ⟨hbody, fun hr hx => ?_⟩
    have hr : e.opened.recognition = .ready := by simpa using hr
    exact absurd (by simpa using hidle.opened_lexeme hr) hx

theorem Scanned.paired (h : e.toScan.Paired e.config e.input) {p : Pattern}
    {o : Option Outcome} (hs : Scanned p e o e') : e'.toScan.Paired e.config e.input := by
  cases hs with
  | layout hl => exact hl.paired h
  | miss hl => exact hl.paired h
  | token => exact Scan.paired_of_idle (by simp [tokenTaken]) (by simp [tokenTaken])

theorem CharRead.paired {c : Option Char} (hc : CharRead e c e') :
    e'.toScan.Paired e.config e.input := by
  cases hc with
  | endOfStream => apply Scan.paired_of_idle <;> simp only [ended] <;> split <;> simp
  | separator => exact ⟨fun _ => .inl rfl, by simp [separatorTaken]⟩
  | plain => exact ⟨fun _ => .inl rfl, by simp [charTaken]⟩

theorem recognizedNow_paired (h : e.toScan.Paired e.config e.input) :
    e.recognizedNow.toScan.Paired e.config e.input := by
  unfold recognizedNow
  split
  · exact Scan.paired_of_idle (by simp) (by simp)
  · exact h

theorem failedNow_paired (h : e.toScan.Paired e.config e.input) :
    e.failedNow.toScan.Paired e.config e.input := by
  unfold failedNow
  split
  · exact Scan.paired_of_idle (by simp) (by simp)
  · exact h

theorem rested_paired (h : e.toScan.Paired e.config e.input) :
    e.rested.toScan.Paired e.config e.input := by
  unfold rested
  split
  · exact Scan.paired_of_idle (by simp) (by simp)
  · exact h

theorem undone_paired (h : e.toScan.Paired e.config e.input) :
    e.undone.toScan.Paired e.config e.input := by
  unfold undone
  split
  · exact h
  · -- the lexeme is gone, and so is the token in progress
    unfold rested
    split
    · exact Scan.paired_of_idle (by simp) (by simp)
    · next hr => exact Scan.paired_of_idle (fun ht => hr (.inl ht)) (by simp)

structure Paired (e : Engine) : Prop where
  current : e.toScan.Paired e.config e.input
  saved : ∀ s ∈ e.snapshots, s.Paired e.config e.input

/-- An operation on the scan keeps the pairing if it keeps that of the scan. -/
theorem Paired.moved (h : e.Paired) (ht : SameText e e') (hs : e'.snapshots = e.snapshots)
    (hc : e'.toScan.Paired e.config e.input) : e'.Paired := by
  constructor
  · rw [ht.config, ht.input]
    exact hc
  · rw [hs, ht.config, ht.input]
    exact h.saved

/-- Where a pattern is tried the line machine is not at a line end. -/
theorem body_not_at_end (ha : e.config.Apart) (hb : e.Holds (Mark.Backed e.config e.input)) :
    ∀ e₁, LaidOut e none e₁ → e₁.lineState ≠ .atLineEnd := fun _ hl =>
  hl.body_lineState_of_stable (Mark.backed_stable ha e.input fun _ => True) hb.current

theorem next_paired (ha : e.config.Apart) (hb : e.Holds (Mark.Backed e.config e.input))
    (h : e.Paired) (c : Command) : (e.next c).Paired := by
  have hcommanded := next_commanded (body_not_at_end ha hb) hb.current c
  generalize e.next c = e' at hcommanded
  cases hcommanded with
  | refused => exact h
  | setInput text =>
    exact ⟨Scan.paired_of_idle (by simp [restarted, Scan.initial])
      (by simp [restarted, Scan.initial]), by simp [restarted]⟩
  | scan _ hs => exact h.moved hs.sameText hs.snapshots (hs.paired h.current)
  | scanLayout hl => exact h.moved hl.sameText hl.snapshots (hl.paired h.current)
  | nextChar hr => exact h.moved hr.sameText hr.snapshots hr.paired
  | undoScan => exact h.moved (undone_sameText e) (undone_snapshots e) (undone_paired h.current)
  | markRecognized =>
    exact h.moved (recognizedNow_sameText e) (recognizedNow_snapshots e)
      (recognizedNow_paired h.current)
  | markFailed =>
    exact h.moved (failedNow_sameText e) (failedNow_snapshots e) (failedNow_paired h.current)
  | resetRecognition =>
    exact h.moved (rested_sameText e) (rested_snapshots e) (rested_paired h.current)
  | clearLexeme | takeToken =>
    exact ⟨⟨h.current.in_token, fun _ hx => absurd rfl hx⟩, h.saved⟩
  | addSnapshot => exact ⟨h.current, List.forall_mem_cons.mpr ⟨h.current, h.saved⟩⟩
  | restoreSnapshot hsaved =>
    have hall := h.saved
    rw [hsaved, List.forall_mem_cons] at hall
    exact ⟨hall.1, hall.2⟩
  | popSnapshot => exact ⟨h.current, fun s hs => h.saved s (List.mem_of_mem_tail hs)⟩

/-- By induction on the commands, with the separators at line ends beside the pairing. -/
theorem after_paired (ha : e.config.Apart) (hb : e.Holds (Mark.Backed e.config e.input))
    (h : e.Paired) (commands : List Command) : (e.after commands).Paired := by
  induction commands generalizing e with
  | nil => exact h
  | cons c commands ih =>
    have hstep : (e.next c).Holds (Mark.Backed (e.next c).config (e.next c).input) := by
      rw [next_config]
      exact next_holds (fun text => Mark.backed_stable ha text _)
        (Mark.origin_backed e.config) hb c (tokenEnds_anywhere e c)
    refine ih ?_ hstep (next_paired ha hb h c)
    rw [next_config]
    exact ha

theorem new_paired (config : EngineConfig) : (new config).Paired :=
  ⟨Scan.paired_of_idle (by simp [new, Scan.initial]) (by simp [new, Scan.initial]),
    by simp [new]⟩

/-- The result is no failure from a broken invariant, such as an event that is refused. -/
def Sound {α : Type} (result : EStateM.Result LexError Engine α) : Prop :=
  ∀ fault e, result = .error fault e → fault.kind ≠ .internal

theorem sound_ok {α : Type} (a : α) (e : Engine) : Sound (.ok a e) := by
  intro fault e' h
  cases h

theorem sound_of_lexical {α : Type} {fault : LexError} (h : fault.kind = .lexical)
    (e : Engine) : Sound (.error fault e : EStateM.Result LexError Engine α) := by
  intro fault' e' hf
  cases hf
  simp [h]

theorem scan_sound (ha : e.config.Apart) (hb : e.Holds (Mark.Backed e.config e.input))
    (p : Pattern) : Sound (scan p e) := by
  by_cases hs : e.Scannable
  · obtain ⟨o, e', h, -⟩ := scan_succeeds hs p (body_not_at_end ha hb)
    exact h ▸ sound_ok o e'
  · obtain ⟨fault, hk, hf⟩ := scanLayout_refuses hs
    simpa [scan, hf] using sound_of_lexical hk e

theorem nextChar_sound (hb : e.Holds (Mark.Backed e.config e.input)) : Sound (nextChar e) := by
  by_cases hs : e.Scannable
  · obtain ⟨c, e', h, -⟩ := nextChar_succeeds hs hb.current
    exact h ▸ sound_ok c e'
  · obtain ⟨fault, hk, hf⟩ := nextChar_refuses hs
    exact hf ▸ sound_of_lexical hk e

theorem undoScan_sound (e : Engine) : Sound (undoScan e) :=
  undoScan_eq e ▸ sound_ok () e.undone

theorem setInput_sound (text : List Char) (e : Engine) : Sound (setInput text e) := by
  rw [setInput_eq]
  split
  · intro fault e' h
    cases h
    decide
  · exact sound_ok _ _

/-- A line that begins where the last one ended begins behind its separator. -/
theorem line_left_forward (h : e.lineState = .atLineEnd → e.separator?.isSome)
    (hf : (do releaseToken; fireLine .afterEol) e = .ok () e') : e.pos < e'.pos := by
  simp only [Program.bind_apply, releaseToken_eq, fireLine] at hf
  have hmark : e.released.toMark = e.toMark := (released_text e).2.2
  cases hl : e.lineState with
  | atLineStart | afterIndentation | inLineBody => simp [hl, LineState.on] at hf
  | atLineEnd =>
    obtain ⟨n, hn⟩ := Option.isSome_iff_exists.mp (h hl)
    have hn : e.config.eol.consumedAt? e.input e.pos = some n := hn
    have hpos := (Pattern.consumedAt?_within hn).1
    simp only [hmark, hl, LineState.on, enterLine, EStateM.Result.ok.injEq, true_and] at hf
    subst hf
    simp only [beginLine, separator?, released_text, hn, Option.getD_some]
    omega

theorem line_read_forward {n : Nat} (h : e.separator? = some n)
    (hf : (do releaseToken; takeSeparator n) e = .ok () e') : e.pos < e'.pos := by
  have hr : e.released.separator? = some n := by simpa [separator?] using h
  have hpos := (Pattern.consumedAt?_within h).1
  simp only [Program.bind_apply, releaseToken_eq, takeSeparator_eq hr, EStateM.Result.ok.injEq,
    true_and] at hf
  subst hf
  simp only [separatorTaken, released_text]
  omega

/-- What the two machines grant each other, and the operations that rely on it. The last two
tell of the places where a line begins: when a layout step leaves the line before, and when a
separator is read. -/
structure InStep (e : Engine) : Prop where
  line_end : e.lineState = .atLineEnd → e.separator?.isSome
  in_token : e.recognition = .tokenizing →
    e.lineState = .inLineBody ∨ e.lineState = .atLineEnd
  between : e.recognition = .ready → e.lexeme = [] ∨
    e.lineState = .atLineEnd ∧ ∃ n, e.separator? = some n ∧ e.lexeme = e.upcoming n
  scan : ∀ p, Sound (scan p e)
  next_char : Sound (nextChar e)
  undo_scan : Sound (undoScan e)
  set_input : ∀ text, Sound (setInput text e)
  line_left : ∀ e', (do releaseToken; fireLine .afterEol) e = .ok () e' → e.pos < e'.pos
  line_read : ∀ n, e.separator? = some n →
    ∀ e', (do releaseToken; takeSeparator n) e = .ok () e' → e.pos < e'.pos

/-- The machines are in step after any commands. -/
theorem after_inStep {config : EngineConfig} (h : config.Apart) (commands : List Command) :
    ((new config).after commands).InStep := by
  have hconfig := after_config (new config) commands
  have hb := after_backed h commands
  have hp := after_paired (e := new config) h
    (new_holds config (Mark.origin_backed config)) (new_paired config) commands
  generalize (new config).after commands = e at hconfig hb hp
  obtain rfl : e.config = config := hconfig
  constructor
  · exact hb.current
  · exact hp.current.in_token
  · intro hr
    by_cases hx : e.lexeme = []
    · exact .inl hx
    · exact .inr (hp.current.between hr hx)
  · exact scan_sound h hb
  · exact nextChar_sound hb
  · exact undoScan_sound e
  · exact fun text => setInput_sound text e
  · exact fun _ => line_left_forward hb.current
  · exact fun _ hn _ => line_read_forward hn

/-- Between two letters the line end is shown while no token is in progress. -/
theorem line_end_in_step :
    let e := (new {}).after [.setInput ['a', '\n', 'b'], .scan (.char 'a'), .scan (.char 'b')]
    (e.recognition = .ready ∧ e.lineState = .atLineEnd ∧ e.lexeme = ['\n']) ∧ e.InStep :=
  ⟨by decide, after_inStep EngineConfig.default_apart _⟩

end Engine
end TableLexer
