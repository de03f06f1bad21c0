import TableLexer.Proofs.Engine.Commands

/-!
# Where the marks of an engine come from

An engine holds marks: the scan position, the anchor of the lexeme, and the two of every
snapshot. Commands copy marks and take the scan position along, by moves of six kinds. So a
property of marks that holds at the origin and is kept by every move holds of each mark of every
engine that commands lead to.
-/
namespace TableLexer

namespace Mark

def passed (eol : Pattern) (text : List Char) (n : Nat) (counted : Bool) (m : Mark) : Mark :=
  let ends := if counted then eol.matchEnds (Text.slice text m.pos (m.pos + n)) else []
  { m with
    pos := m.pos + n
    line := m.line + ends.length
    lineStart := match ends.getLast? with
      | some last => m.pos + last
      | none => m.lineStart }

/-- One move of the scan position through a text. Tokens end only at places that `ends` admits;
a token, a character and the turn to a line end tell what stands at the place they start from. -/
inductive Moves (config : EngineConfig) (text : List Char) (ends : Nat → Prop) (m : Mark) :
    Mark → Prop where
  | turn (s : LineState)
      (h : s = .atLineEnd → (config.eol.consumedAt? text m.pos).isSome) :
      Moves config text ends m { m with lineState := s }
  | separator {n : Nat} (h : config.eol.consumedAt? text m.pos = some n) :
      Moves config text ends m ⟨m.pos + n, m.line + 1, m.pos + n, .atLineStart⟩
  | noise {n : Nat} (h : config.noise.consumedAt? text m.pos = some n) :
      Moves config text ends m (m.passed config.eol text n
        (Text.hasLineBreak (Text.slice text m.pos (m.pos + n))))
  | indentation {p : Pattern} {n : Nat} (hp : config.indentation = some p)
      (h : p.consumedAt? text m.pos = some n) (hl : m.lineState = .atLineStart) :
      Moves config text ends m (m.passed config.eol text n false)
  | char (h : config.eol.consumedAt? text m.pos = none) (hi : m.pos < text.length)
      (hl : m.lineState ≠ .atLineEnd) :
      Moves config text ends m (m.passed config.eol text 1 false)
  | token {p : Pattern} {n : Nat} (h : p.matchAt? text m.pos = some n)
      (hs : config.eol.consumedAt? text m.pos = none) (hl : m.lineState ≠ .atLineEnd)
      (he : ends (m.pos + n)) :
      Moves config text ends m (m.passed config.eol text n
        (p.spansLines || Text.hasLineBreak (Text.slice text m.pos (m.pos + n))))

/-- The property is kept by every move, and a mark that has it and stands at a line end has a
separator before it. -/
structure Stable (config : EngineConfig) (text : List Char) (ends : Nat → Prop)
    (P : Mark → Prop) : Prop where
  pending : ∀ {m}, P m → m.lineState = .atLineEnd → (config.eol.consumedAt? text m.pos).isSome
  kept : ∀ {m m'}, P m → Moves config text ends m m' → P m'

theorem Stable.and {config : EngineConfig} {text : List Char} {ends : Nat → Prop}
    {P Q : Mark → Prop} (h : Stable config text ends P)
    (hq : ∀ {m m'}, Q m → Moves config text ends m m' → Q m') :
    Stable config text ends fun m => P m ∧ Q m where
  pending hm := h.pending hm.1
  kept hm hmove := ⟨h.kept hm.1 hmove, hq hm.2 hmove⟩

end Mark

namespace Engine

open Mark (Moves Stable)

structure Holds (P : Mark → Prop) (e : Engine) : Prop where
  current : P e.toMark
  anchor : P e.anchor
  saved : ∀ s ∈ e.snapshots, P s.toMark ∧ P s.anchor

theorem Holds.imp {P Q : Mark → Prop} {e : Engine} (h : e.Holds P) (hi : ∀ m, P m → Q m) :
    e.Holds Q :=
  ⟨hi _ h.current, hi _ h.anchor, fun s hs => ⟨hi _ (h.saved s hs).1, hi _ (h.saved s hs).2⟩⟩

theorem skipNoise_mark (e : Engine) :
    e.skipNoise.toMark = match e.config.noise.consumedAt? e.input e.pos with
      | none => e.toMark
      | some n => e.toMark.passed e.config.eol e.input n (Text.hasLineBreak (e.upcoming n)) := by
  unfold skipNoise
  cases e.config.noise.consumedAt? e.input e.pos with
  | none => rfl
  | some n =>
    dsimp only
    split
    · next h =>
      simp only [Mark.passed, h, ↓reduceIte]
      rfl
    · next h => simp [Mark.passed, advance, h]

theorem takeMatch_mark (p : Pattern) (n : Nat) (e : Engine) :
    (e.takeMatch p n).toMark = e.toMark.passed e.config.eol e.input n
      (p.spansLines || Text.hasLineBreak (e.upcoming n)) := by
  unfold takeMatch
  dsimp only
  split
  · next h =>
    simp only [Mark.passed, h, ↓reduceIte]
    rfl
  · next h => simp [Mark.passed, takeChars, pushLexeme, advance, h]

theorem tokenTaken_mark (p : Pattern) (n : Nat) (e : Engine) :
    (e.tokenTaken p n).toMark =
      { e.toMark.passed e.config.eol e.input n
          (p.spansLines || Text.hasLineBreak (e.upcoming n)) with lineState := .inLineBody } := by
  rw [← takeMatch_mark]
  rfl

variable {ends : Nat → Prop} {P : Mark → Prop} {e e' : Engine}

theorem opened_mark (hst : Stable e.config e.input ends P) (h : P e.toMark) :
    P e.opened.toMark := by
  have hr : P e.released.toMark := by simpa using h
  unfold opened lineBegun
  split
  · next hl =>
    obtain ⟨n, hn⟩ := Option.isSome_iff_exists.mp (hst.pending hr hl.1)
    simpa [beginLine, separator?, show e.config.eol.consumedAt? e.input e.pos = some n by
      simpa using hn] using hst.kept hr (.separator hn)
  · exact hr

theorem noise_mark (hst : Stable e.config e.input ends P) (h : P e.toMark) :
    P e.skipNoise.toMark := by
  rw [skipNoise_mark]
  cases hn : e.config.noise.consumedAt? e.input e.pos with
  | none => exact h
  | some n => exact hst.kept h (.noise hn)

theorem indented_mark (hst : Stable e.config e.input ends P) (h : P e.toMark) {n : Nat}
    (hi : e.indentation? = some n) : P (e.indented n).toMark := by
  unfold indentation? at hi
  split at hi
  · next hl =>
    obtain ⟨p, hp, hn⟩ := Option.bind_eq_some_iff.mp hi
    have hpass := hst.kept h (.indentation hp hn hl)
    exact hst.kept hpass (.turn .afterIndentation (by simp))
  · cases hi

theorem lineEnded_mark (hst : Stable e.config e.input ends P) (h : P e.toMark) {n : Nat}
    (hs : e.separator? = some n) : P (e.lineEnded n).toMark := by
  have hturn := hst.kept h (.turn .atLineEnd fun _ => Option.isSome_of_eq_some hs)
  unfold lineEnded
  dsimp only
  split <;> exact hturn

theorem lineEnded_anchor (n : Nat) (e : Engine) :
    (e.lineEnded n).anchor = (e.lineEnded n).toMark ∨ (e.lineEnded n).anchor = e.anchor := by
  unfold lineEnded
  dsimp only
  split
  · exact .inl rfl
  · exact .inr rfl

/-- A layout step takes the scan position along and leaves the anchor, or sets it to where the
scan position has come. -/
theorem LaidOut.marks (hst : Stable e.config e.input ends P) (h : P e.toMark) (ha : P e.anchor)
    {o : Option Outcome} (hl : LaidOut e o e') : P e'.toMark ∧ P e'.anchor := by
  have hopen : P e.opened.toMark := opened_mark hst h
  have hanchor : P e.opened.anchor := by simpa using ha
  have hst : Stable e.opened.config e.opened.input ends P := by simpa using hst
  have hnoise : P e.opened.skipNoise.toMark := noise_mark hst hopen
  cases hl with
  | indentation hi =>
    refine ⟨indented_mark hst hopen hi, ?_⟩
    simp only [indented, takeChars, pushLexeme]
    split
    · exact hopen
    · exact hanchor
  | endOfStream => exact ⟨hnoise, by simpa [ended] using ha⟩
  | lineEnd _ _ hs =>
    have hst : Stable e.opened.skipNoise.config e.opened.skipNoise.input ends P := by
      simpa using hst
    have hend := lineEnded_mark hst hnoise hs
    refine ⟨hend, ?_⟩
    rcases lineEnded_anchor _ e.opened.skipNoise with heq | heq
    · exact heq ▸ hend
    · rw [heq]
      simpa using ha
  | body => exact ⟨hnoise, by simpa using ha⟩

theorem LaidOut.body_lineState_of_stable (hst : Stable e.config e.input ends P)
    (h : P e.toMark) (hl : LaidOut e none e') : e'.lineState ≠ .atLineEnd := by
  have hopen : P e.opened.toMark := opened_mark hst h
  have hst : Stable e.opened.config e.opened.input ends P := by simpa using hst
  have hnoise : P e.opened.skipNoise.toMark := noise_mark hst hopen
  cases hl with
  | body _ _ hs =>
    intro hend
    have hst : Stable e.opened.skipNoise.config e.opened.skipNoise.input ends P := by
      simpa using hst
    have hsome : e.opened.skipNoise.separator?.isSome := hst.pending hnoise hend
    simp [hs] at hsome

theorem Scanned.marks {p : Pattern} {o : Option Outcome} (hs : Scanned p e o e')
    (hst : Stable e.config e.input ends P) (h : P e.toMark) (ha : P e.anchor)
    (he : o = some .token → ends e'.pos) : P e'.toMark ∧ P e'.anchor := by
  cases hs with
  | layout hl => exact hl.marks hst h ha
  | miss hl => exact hl.marks hst h ha
  | @token e₁ n hl hm hne =>
    obtain ⟨hmark, hanchor⟩ := hl.marks hst h ha
    have hsame := hl.sameText
    have hst : Stable e₁.config e₁.input ends P := by
      rw [hsame.config, hsame.input]
      exact hst
    have hsep : e₁.separator? = none := by
      cases hl with
      | body _ _ hsep => exact hsep
    obtain ⟨-, -, -, hpos, -, -, hset⟩ := takeMatch_text p n e₁
    have hend : ends (e₁.pos + n) := by
      have := he rfl
      rwa [show (e₁.tokenTaken p n).pos = e₁.pos + n from hpos] at this
    have hpass := hst.kept hmark (.token hm hsep hne hend)
    constructor
    · have hturn := hst.kept hpass (.turn .inLineBody (by simp))
      rw [tokenTaken_mark]
      exact hturn
    · rw [show (e₁.tokenTaken p n).anchor = _ from hset]
      split
      · exact hmark
      · exact hanchor

theorem CharRead.marks {c : Option Char} (hc : CharRead e c e')
    (hst : Stable e.config e.input ends P) (h : P e.toMark) (ha : P e.anchor) :
    P e'.toMark ∧ P e'.anchor := by
  have hr : P e.released.toMark := by simpa using h
  have hra : P e.released.anchor := by simpa using ha
  have hst : Stable e.released.config e.released.input ends P := by simpa using hst
  cases hc with
  | endOfStream => exact ⟨hr, hra⟩
  | @separator c n hc hs =>
    have hs : e.released.separator? = some n := by simpa [separator?] using hs
    have hbegun := hst.kept hr (.separator hs)
    refine ⟨hst.kept hbegun (.turn .inLineBody (by simp)), ?_⟩
    simp only [separatorTaken]
    split
    · exact hr
    · exact hra
  | plain hc hs hl =>
    have hs : e.released.separator? = none := by simpa [separator?] using hs
    have hl : e.released.lineState ≠ .atLineEnd := by simpa using hl
    have hi : e.released.pos < e.released.input.length := by
      simpa using (List.getElem?_eq_some_iff.mp hc).1
    have hpass := hst.kept hr (.char hs hi hl)
    refine ⟨hst.kept hpass (.turn .inLineBody (by simp)), ?_⟩
    simp only [charTaken, takeChars, pushLexeme]
    split
    · exact hr
    · exact hra

def scanned? (e : Engine) : Command → Option Engine
  | .scan p => match scan p e with
    | .ok (some .token) e' => some e'
    | _ => none
  | _ => none

def TokenEnds (ends : List Char → Nat → Prop) (e : Engine) (c : Command) : Prop :=
  ∀ e' ∈ e.scanned? c, ends e'.input e'.pos

def TokensEnd (ends : List Char → Nat → Prop) : Engine → List Command → Prop
  | _, [] => True
  | e, c :: cs => e.TokenEnds ends c ∧ TokensEnd ends (e.next c) cs

instance decidableTokensEnd (ends : List Char → Nat → Prop) [∀ text i, Decidable (ends text i)] :
    ∀ (e : Engine) (cs : List Command), Decidable (e.TokensEnd ends cs)
  | _, [] => inferInstanceAs (Decidable True)
  | e, c :: cs =>
    have := decidableTokensEnd ends (e.next c) cs
    inferInstanceAs (Decidable ((∀ e' ∈ e.scanned? c, ends e'.input e'.pos) ∧ _))

theorem tokenEnds_anywhere (e : Engine) (c : Command) : e.TokenEnds (fun _ _ => True) c :=
  fun _ _ => trivial

theorem tokensEnd_anywhere (e : Engine) (cs : List Command) :
    e.TokensEnd (fun _ _ => True) cs := by
  induction cs generalizing e with
  | nil => trivial
  | cons c cs ih => exact ⟨tokenEnds_anywhere e c, ih (e.next c)⟩

theorem Holds.copy (h : e.Holds P) (hm : e'.toMark = e.toMark) (ha : e'.anchor = e.anchor)
    (hs : e'.snapshots = e.snapshots) : e'.Holds P := by
  constructor
  · rw [hm]
    exact h.current
  · rw [ha]
    exact h.anchor
  · rw [hs]
    exact h.saved

theorem Holds.recognizedNow (h : e.Holds P) : e.recognizedNow.Holds P := by
  unfold Engine.recognizedNow
  split
  · exact h.copy rfl rfl rfl
  · exact h

theorem Holds.failedNow (h : e.Holds P) : e.failedNow.Holds P := by
  unfold Engine.failedNow
  split
  · exact h.copy rfl rfl rfl
  · exact h

theorem Holds.rested (h : e.Holds P) : e.rested.Holds P := by
  unfold Engine.rested
  split
  · exact h.copy rfl rfl rfl
  · exact h

theorem Holds.undone (h : e.Holds P) : e.undone.Holds P := by
  unfold Engine.undone
  split
  · exact h
  · exact Holds.rested ⟨h.anchor, h.anchor, h.saved⟩

variable {ends : List Char → Nat → Prop} {P : List Char → Mark → Prop}

/-- A command keeps what is kept by the moves through every text, and new input starts at the
origin. -/
theorem next_holds (hst : ∀ text, Stable e.config text (ends text) (P text))
    (horigin : ∀ text, P text .origin) (h : e.Holds (P e.input)) (c : Command)
    (hc : e.TokenEnds ends c) : (e.next c).Holds (P (e.next c).input) := by
  have hstable := hst e.input
  have hcommanded := next_commanded (fun _ hl => hl.body_lineState_of_stable hstable h.current)
    (hstable.pending h.current) c
  have moved : ∀ e', SameText e e' → e'.snapshots = e.snapshots →
      P e.input e'.toMark ∧ P e.input e'.anchor → e'.Holds (P e'.input) := by
    intro e' htext hsnap hmarks
    rw [htext.input]
    refine ⟨hmarks.1, hmarks.2, ?_⟩
    rw [hsnap]
    exact h.saved
  generalize e.next c = e' at hcommanded
  cases hcommanded with
  | refused => exact h
  | setInput text => exact ⟨horigin text, horigin text, by simp [restarted]⟩
  | scan hscan hs =>
    apply moved e' hs.sameText hs.snapshots
    apply hs.marks hstable h.current h.anchor
    rintro rfl
    have hend := hc e' (by simp [scanned?, hscan])
    rwa [hs.sameText.input] at hend
  | scanLayout hl => exact moved e' hl.sameText hl.snapshots (hl.marks hstable h.current h.anchor)
  | nextChar hr => exact moved e' hr.sameText hr.snapshots (hr.marks hstable h.current h.anchor)
  | undoScan =>
    rw [(undone_sameText e).input]
    exact h.undone
  | markRecognized =>
    rw [(recognizedNow_sameText e).input]
    exact h.recognizedNow
  | markFailed =>
    rw [(failedNow_sameText e).input]
    exact h.failedNow
  | resetRecognition =>
    rw [(rested_sameText e).input]
    exact h.rested
  | clearLexeme | takeToken => exact h.copy rfl rfl rfl
  | addSnapshot =>
    exact ⟨h.current, h.anchor, List.forall_mem_cons.mpr ⟨⟨h.current, h.anchor⟩, h.saved⟩⟩
  | restoreSnapshot hsaved =>
    have hall := h.saved
    rw [hsaved, List.forall_mem_cons] at hall
    exact ⟨hall.1.1, hall.1.2, hall.2⟩
  | popSnapshot => exact ⟨h.current, h.anchor, fun s hs => h.saved s (List.mem_of_mem_tail hs)⟩

/-- What holds at the origin and is kept by every move holds of all marks, whatever the commands
were. The induction is on the commands. -/
theorem after_holds (hst : ∀ text, Stable e.config text (ends text) (P text))
    (horigin : ∀ text, P text .origin) (h : e.Holds (P e.input)) {cs : List Command}
    (hcs : e.TokensEnd ends cs) : (e.after cs).Holds (P (e.after cs).input) := by
  induction cs generalizing e with
  | nil => exact h
  | cons c cs ih =>
    refine ih ?_ (next_holds hst horigin h c hcs.1) hcs.2
    rw [next_config]
    exact hst

theorem new_holds (config : EngineConfig) (horigin : ∀ text, P text .origin) :
    (new config).Holds (P (new config).input) := ⟨horigin _, horigin _, by simp [new]⟩

end Engine
end TableLexer
