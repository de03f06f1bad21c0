import TableLexer.Proofs.Engine.Progress
import TableLexer.Proofs.Engine.Snapshots
import TableLexer.Proofs.LineBreaks

/-!
# The lexeme is text that was read

The lexeme, its anchor and the scan position are updated apart from each other: a scan appends a
match, the reading of a separator puts the lexeme aside and back, clearing and putting back empty
it, and snapshots bring old ones back. Whatever the commands were and whether they succeeded, a
lexeme is either the separator shown at a line end or the text from its anchor to the scan
position, less the noise that was skipped behind its first character.
-/
namespace TableLexer

structure Gap where
  start : Nat
  length : Nat
  deriving DecidableEq, Repr

def Gap.stop (g : Gap) : Nat := g.start + g.length

namespace Text

/-- The text between two places without the gaps in it, which follow one another. -/
def without (text : List Char) (start stop : Nat) : List Gap → List Char
  | [] => slice text start stop
  | g :: later => slice text start g.start ++ without text g.stop stop later

theorem slice_append (text : List Char) {a b : Nat} (h : a ≤ b) (n : Nat) :
    slice text a b ++ slice text b (b + n) = slice text a (b + n) := by
  obtain ⟨m, rfl⟩ := Nat.exists_eq_add_of_le h
  rw [slice_add, slice_add, Nat.add_assoc, slice_add, List.take_add, List.drop_drop]

theorem without_gap (text : List Char) (start stop : Nat) (gaps : List Gap) (g : Gap) :
    without text start stop (gaps ++ [g]) =
      without text start g.start gaps ++ slice text g.stop stop := by
  induction gaps generalizing start with
  | nil => rfl
  | cons first later ih => simp [without, ih]

theorem without_append (text : List Char) {start stop : Nat} {gaps : List Gap}
    (h : start ≤ stop) (hg : ∀ g ∈ gaps, g.stop ≤ stop) (n : Nat) :
    without text start (stop + n) gaps =
      without text start stop gaps ++ slice text stop (stop + n) := by
  induction gaps generalizing start with
  | nil => exact (slice_append text h n).symm
  | cons first later ih =>
    obtain ⟨hfirst, hlater⟩ := List.forall_mem_cons.mp hg
    simp [without, ih hfirst hlater]

/-- The lexeme is the text between two places without the gaps, each a run of noise that starts
behind the first character. -/
structure Spelled (noise : Pattern) (text : List Char) (start stop : Nat) (gaps : List Gap)
    (lexeme : List Char) : Prop where
  consumed : start < stop
  within : stop ≤ text.length
  skipped : ∀ g ∈ gaps, start < g.start ∧ g.stop ≤ stop ∧
    noise.consumedAt? text g.start = some g.length
  disjoint : gaps.Pairwise fun g later => g.stop ≤ later.start
  spelling : lexeme = without text start stop gaps

namespace Spelled

variable {noise : Pattern} {text : List Char} {start stop n : Nat} {gaps : List Gap}
  {lexeme : List Char}

theorem first (hn : 0 < n) (h : start + n ≤ text.length) :
    Spelled noise text start (start + n) [] (slice text start (start + n)) where
  consumed := by omega
  within := h
  skipped := by simp
  disjoint := .nil
  spelling := rfl

theorem take (h : Spelled noise text start stop gaps lexeme) (hn : stop + n ≤ text.length) :
    Spelled noise text start (stop + n) gaps (lexeme ++ slice text stop (stop + n)) where
  consumed := Nat.lt_of_lt_of_le h.consumed (Nat.le_add_right _ _)
  within := hn
  skipped g hg := by
    obtain ⟨hs, he, hnoise⟩ := h.skipped g hg
    exact ⟨hs, by omega, hnoise⟩
  disjoint := h.disjoint
  spelling := by
    rw [h.spelling, without_append text (Nat.le_of_lt h.consumed) fun g hg => (h.skipped g hg).2.1]

/-- Noise is skipped where the text taken so far ends: one more gap. -/
theorem skip (h : Spelled noise text start stop gaps lexeme)
    (hn : noise.consumedAt? text stop = some n) :
    Spelled noise text start (stop + n) (gaps ++ [⟨stop, n⟩]) lexeme where
  consumed := Nat.lt_of_lt_of_le h.consumed (Nat.le_add_right _ _)
  within := (Pattern.consumedAt?_within hn).2
  skipped g hg := by
    rcases List.mem_append.mp hg with hg | hg
    · obtain ⟨hs, he, hnoise⟩ := h.skipped g hg
      exact ⟨hs, by omega, hnoise⟩
    · obtain rfl : g = ⟨stop, n⟩ := by simpa using hg
      exact ⟨h.consumed, Nat.le_refl _, hn⟩
  disjoint := by
    rw [List.pairwise_append]
    refine ⟨h.disjoint, List.pairwise_singleton _ _, ?_⟩
    intro g hg last hlast
    obtain rfl : last = ⟨stop, n⟩ := by simpa using hlast
    exact (h.skipped g hg).2.1
  spelling := by
    have hempty : slice text (stop + n) (stop + n) = [] := by simp [slice]
    rw [without_gap, h.spelling]
    simp [Gap.stop, hempty]

end Spelled
end Text

namespace Scan

structure ShowsSeparator (config : EngineConfig) (text : List Char) (s : Scan) : Prop where
  line_end : s.lineState = .atLineEnd
  anchored : s.anchor = s.toMark
  separator : ∃ n, config.eol.consumedAt? text s.pos = some n ∧
    s.lexeme = Text.slice text s.pos (s.pos + n)

def Spells (config : EngineConfig) (text : List Char) (s : Scan) : Prop :=
  ∃ gaps, Text.Spelled config.noise text s.anchor.pos s.pos gaps s.lexeme

/-- What is kept about the lexeme: no separator is shown inside a token, and between tokens there
is no lexeme but at the end of a line. -/
structure Told (config : EngineConfig) (text : List Char) (s : Scan) : Prop where
  lexeme : s.lexeme ≠ [] →
    s.ShowsSeparator config text ∧ s.recognition ≠ .tokenizing ∨ s.Spells config text
  between : s.recognition = .ready → s.lexeme ≠ [] → s.lineState = .atLineEnd

theorem told_of_no_lexeme {config : EngineConfig} {text : List Char} {s : Scan}
    (h : s.lexeme = []) : s.Told config text :=
  ⟨fun hne => absurd h hne, fun _ hne => absurd h hne⟩

end Scan

namespace Engine

variable {e e' : Engine} {n : Nat}

def Spells (e : Engine) : Prop := e.lexeme ≠ [] → e.toScan.Spells e.config e.input

/-- Taking text into a lexeme that spells what was read gives such a lexeme again. -/
theorem Spells.taken (h : e.Spells) (hn : e.pos + n ≤ e.input.length) {s : Scan}
    (hp : s.pos = e.pos + n) (hx : s.lexeme = e.lexeme ++ e.upcoming n)
    (ha : s.anchor = if e.lexeme.isEmpty then e.toMark else e.anchor) (hne : s.lexeme ≠ []) :
    s.Spells e.config e.input := by
  unfold Scan.Spells
  rw [hp, ha]
  by_cases hold : e.lexeme = []
  · have hpos : 0 < n := by
      apply Nat.pos_of_ne_zero
      rintro rfl
      simp [hx, hold, upcoming, Text.slice] at hne
    rw [hx, hold]
    exact ⟨[], Text.Spelled.first hpos hn⟩
  · obtain ⟨gaps, hgaps⟩ := h hold
    rw [hx, if_neg (by simpa using hold)]
    exact ⟨gaps, hgaps.take hn⟩

theorem Spells.takeChars (h : e.Spells) (hn : e.pos + n ≤ e.input.length) :
    (e.takeChars n).Spells := h.taken hn rfl rfl rfl

theorem Spells.takeMatch (h : e.Spells) {p : Pattern}
    (hm : p.matchAt? e.input e.pos = some n) : (e.takeMatch p n).Spells := by
  obtain ⟨hc, hi, -, hp, -, hx, ha⟩ := takeMatch_text p n e
  unfold Spells
  rw [hc, hi]
  exact h.taken (Pattern.matchAt?_within hm) hp hx ha

theorem Spells.skipNoise (h : e.Spells) : e.skipNoise.Spells := by
  obtain ⟨hc, hi, -, hx, ha, -⟩ := skipNoise_text e
  unfold Spells
  rw [hx, hc, hi]
  intro hne
  obtain ⟨gaps, hgaps⟩ := h hne
  unfold Scan.Spells
  rw [skipNoise_pos, hx, ha]
  cases hn : e.config.noise.consumedAt? e.input e.pos with
  | none => exact ⟨gaps, hgaps⟩
  | some n => exact ⟨_, hgaps.skip hn⟩

/-- What is kept about the lexeme holds of the scan. -/
def Told (e : Engine) : Prop := e.toScan.Told e.config e.input

theorem Spells.told (h : e.Spells)
    (hb : e.recognition = .ready → e.lexeme ≠ [] → e.lineState = .atLineEnd) : e.Told :=
  ⟨fun hne => .inr (h hne), hb⟩

theorem Told.released (h : e.Told) : e.released.Told := by
  unfold Engine.released
  split
  · exact Scan.told_of_no_lexeme rfl
  · exact h

/-- Where the layout is looked at no separator is shown any more. -/
theorem Told.opened (h : e.Told) (hs : e.Scannable) : e.opened.Spells := by
  intro hne
  rcases opened_unclaimed hs with hr | hr
  · have hidle : e.Idle := h.between
    exact absurd (hidle.opened_lexeme hr) hne
  · have heq := opened_of_tokenizing hr
    rw [heq] at hr hne ⊢
    rcases h.lexeme hne with ⟨-, hno⟩ | hspells
    · exact absurd hr hno
    · exact hspells

theorem lineEnded_told (h : e.Spells) (hs : e.separator? = some n) : (e.lineEnded n).Told := by
  have hs : e.config.eol.consumedAt? e.input e.pos = some n := hs
  unfold lineEnded
  dsimp only
  split
  · next hr =>
    refine ⟨fun _ => .inl ⟨⟨rfl, rfl, n, hs, rfl⟩, ?_⟩, fun _ _ => rfl⟩
    simp [showSeparator, clearLexeme, pushLexeme, hr]
  · exact Spells.told h fun _ _ => rfl

theorem LaidOut.spells (h : e.Told) (hs : e.Scannable) (hl : LaidOut e none e') :
    e'.Spells := by
  cases hl
  exact (h.opened hs).skipNoise

theorem LaidOut.told (h : e.Told) (hs : e.Scannable) {o : Option Outcome}
    (hl : LaidOut e o e') : e'.Told := by
  have hopened := h.opened hs
  cases hl with
  | indentation hi =>
    exact Spells.told (hopened.takeChars (indentation?_eq_some hi).2.2) (by simp [indented])
  | endOfStream =>
    refine Spells.told (e := Engine.ended _) hopened.skipNoise ?_
    unfold ended
    dsimp only
    split <;> simp
  | lineEnd _ _ hp => exact lineEnded_told hopened.skipNoise hp
  | body =>
    refine hopened.skipNoise.told ?_
    intro hr hne
    have hidle : e.Idle := h.between
    exact absurd (by simpa using hidle.opened_lexeme (by simpa using hr)) hne

theorem ScanLeft.told (h : e.Told) {p : Pattern} (hs : ScanLeft p e e') : e'.Told := by
  cases hs with
  | refused => exact h
  | scanned hs hscanned =>
    cases hscanned with
    | layout hl => exact hl.told h hs
    | miss hl => exact hl.told h hs
    | token hl hm => exact Spells.told ((hl.spells h hs).takeMatch hm) (by simp [tokenTaken])
  | brokenOff hs hl hm hend =>
    exact ((hl.spells h hs).takeMatch hm).told fun _ _ => by simpa using hend

theorem Told.spells (h : e.Told) (hs : e.separator? = none) : e.Spells := by
  intro hne
  rcases h.lexeme hne with ⟨⟨-, -, n, hn, -⟩, -⟩ | hspells
  · exact absurd (hs.symm.trans hn) (by simp)
  · exact hspells

/-- A separator that is shown is not kept when it is read. -/
theorem Told.kept (h : e.Told) (hu : e.Unclaimed) :
    ({ e with lexeme := e.keptLexeme } : Engine).Spells := by
  unfold Spells keptLexeme
  dsimp only
  split
  · next hpending => exact fun hne => absurd rfl hne
  · next hpending =>
    intro hne
    rcases h.lexeme hne with ⟨hshows, hno⟩ | hspells
    · exact absurd ⟨hshows.line_end, hu.resolve_right hno⟩ hpending
    · exact hspells

theorem separatorTaken_told (h : e.Told) (hu : e.Unclaimed) (hs : e.separator? = some n) :
    (e.separatorTaken n).Told := by
  refine Spells.told ?_ (by simp [separatorTaken])
  exact (h.kept hu).taken (Pattern.consumedAt?_within hs).2 rfl rfl rfl

theorem CharLeft.told (h : e.Told) (hc : CharLeft e e') : e'.Told := by
  have hrel := h.released
  have hsep : e.released.separator? = e.separator? := by simp [separator?]
  have within : ∀ c, e.input[e.pos]? = some c →
      e.released.pos + 1 ≤ e.released.input.length := by
    intro c hc
    simpa using Nat.succ_le_of_lt (List.getElem?_eq_some_iff.mp hc).1
  cases hc with
  | refused => exact h
  | read hs hread =>
    cases hread with
    | endOfStream =>
      refine ⟨fun hne => ?_, ?_⟩
      · refine (hrel.lexeme hne).imp (fun hshows => ⟨⟨hshows.1.1, hshows.1.2, hshows.1.3⟩, ?_⟩) id
        unfold ended
        dsimp only
        split <;> simp
      · unfold ended
        dsimp only
        split <;> simp
    | separator _ hp => exact separatorTaken_told hrel (released_unclaimed hs) (hsep.trans hp)
    | plain hc hp =>
      exact Spells.told ((hrel.spells (hsep.trans hp)).takeChars (within _ hc))
        (by simp [charTaken])
  | brokenOff _ hc hp hend =>
    refine ((hrel.spells (hsep.trans hp)).takeChars (within _ hc)).told ?_
    intro _ _
    simpa [takeChars, pushLexeme, advance] using hend

theorem Told.recognizedNow (h : e.Told) : e.recognizedNow.Told := by
  unfold Engine.recognizedNow
  split
  · exact ⟨fun hne => (h.lexeme hne).imp (fun k => ⟨⟨k.1.1, k.1.2, k.1.3⟩, by simp⟩) id,
      by simp⟩
  · exact h

theorem Told.failedNow (h : e.Told) : e.failedNow.Told := by
  unfold Engine.failedNow
  split
  · exact ⟨fun hne => (h.lexeme hne).imp (fun k => ⟨⟨k.1.1, k.1.2, k.1.3⟩, by simp⟩) id,
      by simp⟩
  · exact h

theorem Told.rested (h : e.Told) : e.rested.Told := by
  unfold Engine.rested
  split
  · exact Scan.told_of_no_lexeme rfl
  · exact h

theorem Told.undone (h : e.Told) : e.undone.Told := by
  unfold Engine.undone
  split
  · exact h
  · exact Told.rested (Scan.told_of_no_lexeme rfl)

structure Recorded (e : Engine) : Prop where
  current : e.Told
  saved : ∀ s ∈ e.snapshots, s.Told e.config e.input

theorem Recorded.moved (h : e.Recorded) (ht : SameText e e')
    (hs : e'.snapshots = e.snapshots) (hc : e'.Told) : e'.Recorded := by
  refine ⟨hc, ?_⟩
  rw [hs, ht.config, ht.input]
  exact h.saved

theorem new_recorded (config : EngineConfig) : (new config).Recorded :=
  ⟨Scan.told_of_no_lexeme rfl, by simp [new]⟩

theorem next_recorded (h : e.Recorded) (c : Command) : (e.next c).Recorded := by
  cases c with
  | setInput text =>
    simp only [next, setInput_eq]
    split
    · exact h
    · exact ⟨Scan.told_of_no_lexeme rfl, by simp [restarted]⟩
  | scan p =>
    exact h.moved (scan_sameText p e) (scan_snapshots p e) ((scan_left p e).told h.current)
  | scanLayout =>
    by_cases hs : e.Scannable
    · obtain ⟨o, e', hl⟩ := scanLayout_total hs
      have hlaid := (scanLayout_eq_ok_iff.mp hl).2
      simp only [next, hl]
      exact h.moved hlaid.sameText hlaid.snapshots (hlaid.told h.current hs)
    · obtain ⟨fault, -, hf⟩ := scanLayout_refuses hs
      simpa [next, hf] using h
  | nextChar =>
    exact h.moved (nextChar_sameText e) (nextChar_snapshots e) ((nextChar_left e).told h.current)
  | undoScan =>
    simpa [next, undoScan_eq] using
      h.moved (undone_sameText e) (undone_snapshots e) h.current.undone
  | markRecognized =>
    simpa [next, markRecognized_eq] using
      h.moved (recognizedNow_sameText e) (recognizedNow_snapshots e) h.current.recognizedNow
  | markFailed =>
    simpa [next, markFailed_eq] using
      h.moved (failedNow_sameText e) (failedNow_snapshots e) h.current.failedNow
  | resetRecognition =>
    simpa [next, resetRecognition_eq] using
      h.moved (rested_sameText e) (rested_snapshots e) h.current.rested
  | clearLexeme | takeToken => exact ⟨Scan.told_of_no_lexeme rfl, h.saved⟩
  | addSnapshot => exact ⟨h.current, List.forall_mem_cons.mpr ⟨h.current, h.saved⟩⟩
  | restoreSnapshot =>
    simp only [next, restoreSnapshot]
    split
    · exact h
    · next hsaved =>
      have hall := h.saved
      rw [hsaved, List.forall_mem_cons] at hall
      exact ⟨hall.1, hall.2⟩
  | popSnapshot => exact ⟨h.current, fun s hs => h.saved s (List.mem_of_mem_tail hs)⟩

/-- By induction on the commands, those that are refused or broken off included. -/
theorem after_recorded (h : e.Recorded) (commands : List Command) :
    (e.after commands).Recorded := by
  induction commands generalizing e with
  | nil => exact h
  | cons c commands ih => exact ih (next_recorded h c)

/-- After any commands to a new engine a lexeme is the separator at the line end where scanning
stands, or the text read since its anchor without the noise in it. -/
theorem lexeme_faithful {config : EngineConfig} {commands : List Command}
    (h : ((new config).after commands).lexeme ≠ []) :
    ((new config).after commands).toScan.ShowsSeparator config
        ((new config).after commands).input ∨
      ((new config).after commands).toScan.Spells config
        ((new config).after commands).input := by
  have hconfig := after_config (new config) commands
  have htold := (after_recorded (new_recorded config) commands).current.lexeme h
  rw [hconfig] at htold
  exact htold.imp_left And.left

/-- A blank inside a token is left out of its lexeme. -/
theorem lexeme_across_blank :
    let e := (new {}).after [.setInput ['a', ' ', 'b'], .nextChar, .scan (.char 'b')]
    e.lexeme = ['a', 'b'] ∧ e.anchor.pos = 0 ∧ e.pos = 3 ∧
      (e.toScan.ShowsSeparator {} e.input ∨ e.toScan.Spells {} e.input) :=
  ⟨by decide +kernel, by decide +kernel, by decide +kernel,
    lexeme_faithful (by decide +kernel)⟩

end Engine
end TableLexer
