import TableLexer.Proofs.Engine.Progress

/-!
# Line separators met by the engine

A separator is met when a layout step reports the end of the line, and it is consumed by the
next layout step between tokens. A place of the text is passed when scanning is beyond it or
its separator is pending.
-/
namespace TableLexer

structure Separator where
  text : String
  position : Position
  deriving DecidableEq, Repr

namespace Engine

def separatorHere? (e : Engine) : Option Separator :=
  e.separator?.map fun n => ⟨String.ofList (e.upcoming n), e.currentPosition⟩

def leaving? (e : Engine) : Option Separator :=
  if e.lineState = .atLineEnd ∧ (e.recognition = .ready ∨ e.recognition = .recognized) then
    e.separatorHere?
  else none

/-- Scanning is beyond the place, or stands there at a pending separator. -/
def Passed (e : Engine) (place : Nat) : Prop :=
  place < e.pos ∨ place = e.pos ∧ e.lineState = .atLineEnd ∧ e.separator?.isSome

variable {e e' : Engine} {place : Nat}

theorem separatorHere?_offset {s : Separator} (h : e.separatorHere? = some s) :
    s.position.offset = e.pos := by
  obtain ⟨n, -, rfl⟩ := Option.map_eq_some_iff.mp h
  rfl

theorem separatorHere?_isSome {s : Separator} (h : e.separatorHere? = some s) :
    e.separator?.isSome := by
  obtain ⟨n, hn, -⟩ := Option.map_eq_some_iff.mp h
  simp [hn]

/-- Between tokens everything passed lies behind where the layout is looked at. -/
theorem Passed.lt_opened (h : e.Passed place)
    (hr : e.recognition = .ready ∨ e.recognition = .recognized) : place < e.opened.pos := by
  have hpos := opened_pos hr
  rcases h with h | ⟨rfl, hl, hs⟩
  · omega
  · obtain ⟨n, hn⟩ := Option.isSome_iff_exists.mp hs
    have := (Pattern.consumedAt?_within hn).1
    rw [hl, if_pos rfl, hn, Option.getD_some] at hpos
    omega

theorem Passed.le (h : e.Passed place) : place ≤ e.pos := by
  rcases h with h | ⟨rfl, -⟩
  · omega
  · exact Nat.le_refl _

theorem Passed.skipNoise (h : e.Passed place) : e.skipNoise.Passed place := by
  have hp := skipNoise_pos e
  cases hn : e.config.noise.consumedAt? e.input e.pos with
  | none =>
    have he : e.skipNoise = e := by simp [Engine.skipNoise, hn]
    rw [he]
    exact h
  | some n =>
    have := (Pattern.consumedAt?_within hn).1
    have := h.le
    rw [hn, Option.getD_some] at hp
    exact .inl (by omega)

theorem opened_tokenizing (h : e.recognition = .tokenizing) : e.opened = e := by
  have hr : e.released = e := by simp [released, h]
  rw [opened, hr, lineBegun, h]
  simp

theorem Passed.opened (h : e.Passed place) (hs : e.Scannable) : e.opened.Passed place := by
  rcases hs with hr | hr | hr
  · exact .inl (h.lt_opened (.inl hr))
  · rw [opened_tokenizing hr]
    exact h
  · exact .inl (h.lt_opened (.inr hr))

theorem Passed.laidOut (h : e.Passed place) (hs : e.Scannable) {o : Option Outcome}
    (hl : LaidOut e o e') : e'.Passed place := by
  have ho := h.opened hs
  cases hl with
  | @indentation n hi =>
    have := (indentation?_eq_some hi).2.1
    have := ho.le
    left
    change place < e.opened.pos + n
    omega
  | endOfStream => exact ho.skipNoise
  | @lineEnd n _ _ hp =>
    rcases ho.skipNoise with h | ⟨he, -, -⟩
    · exact .inl (by simpa using h)
    · refine .inr ⟨by simpa using he, by simp, ?_⟩
      simpa [separator?] using Option.isSome_of_eq_some hp
  | body => exact ho.skipNoise

theorem Passed.lt (h : e.Passed place) (hl : e.lineState ≠ .atLineEnd) : place < e.pos :=
  h.resolve_right fun k => hl k.2.1

theorem passed_here {s : Separator} (hl : e.lineState = .atLineEnd)
    (hs : e.separatorHere? = some s) : e.Passed s.position.offset :=
  .inr ⟨separatorHere?_offset hs, hl, separatorHere?_isSome hs⟩

theorem Passed.tokenTaken (h : e.Passed place) (hl : e.lineState ≠ .atLineEnd) (p : Pattern)
    (n : Nat) : (e.tokenTaken p n).Passed place := by
  have hp : (e.tokenTaken p n).pos = e.pos + n := (takeMatch_text p n e).2.2.2.1
  have := h.lt hl
  exact .inl (by omega)

theorem Passed.charRead (h : e.Passed place) {c : Option Char} (hc : CharRead e c e') :
    e'.Passed place := by
  have hpos : e.released.pos = e.pos := by simp
  cases hc with
  | endOfStream =>
    rcases h with h | ⟨hp, hl, hs⟩
    · exact .inl (by change place < e.released.pos; omega)
    · refine .inr ⟨?_, ?_, ?_⟩
      · change place = e.released.pos
        omega
      · change e.released.lineState = .atLineEnd
        simpa using hl
      · change e.released.separator?.isSome
        simpa [separator?] using hs
  | @separator c n _ hs =>
    have := (Pattern.consumedAt?_within hs).1
    have := h.le
    left
    change place < e.released.pos + n
    omega
  | plain =>
    have := h.le
    left
    change place < e.released.pos + 1
    omega

structure SamePlace (e e' : Engine) : Prop where
  mark : e'.toMark = e.toMark
  config : e'.config = e.config
  input : e'.input = e.input

theorem SamePlace.separatorHere? (h : SamePlace e e') : e'.separatorHere? = e.separatorHere? := by
  simp only [Engine.separatorHere?, separator?, upcoming, currentPosition, h.mark, h.config,
    h.input]

theorem SamePlace.passed (h : SamePlace e e') (hp : e.Passed place) : e'.Passed place := by
  simpa only [Passed, separator?, h.mark, h.config, h.input] using hp

theorem rested_samePlace (e : Engine) : SamePlace e e.rested := by
  unfold rested
  split <;> exact ⟨rfl, rfl, rfl⟩

theorem queued_samePlace (e : Engine) : SamePlace e e.recognizedNow.clearLexeme := by
  unfold recognizedNow
  split <;> exact ⟨rfl, rfl, rfl⟩

/-- The separators met from the place `start` on are all in the list, and so is the pending
one. -/
structure Tracked (start : Nat) (met : List Separator) (e : Engine) : Prop where
  forward : start ≤ e.pos
  passed : ∀ s ∈ met, e.Passed s.position.offset
  pending : e.lineState = .atLineEnd → ∀ s, e.separatorHere? = some s → s ∈ met

variable {start : Nat} {met : List Separator}

theorem Tracked.samePlace (h : Tracked start met e) (hs : SamePlace e e') :
    Tracked start met e' := by
  constructor
  · rw [hs.mark]
    exact h.forward
  · intro s hm
    exact hs.passed (h.passed s hm)
  · rw [hs.mark, hs.separatorHere?]
    exact h.pending

/-- What a scan meets: the separator at which its layout step reported the end of the line. -/
def met? : EStateM.Result LexError Engine (Option Outcome) → Option Separator
  | .ok (some .lineEnd) e => e.separatorHere?
  | _ => none

theorem met?_eq_some {r : EStateM.Result LexError Engine (Option Outcome)} {s : Separator}
    (h : met? r = some s) : ∃ e, r = .ok (some .lineEnd) e ∧ e.separatorHere? = some s := by
  unfold met? at h
  split at h
  · next e => exact ⟨e, rfl, h⟩
  · cases h

theorem separatorHere?_atEnd (h : e.atEnd = true) : e.separatorHere? = none := by
  cases hs : e.separator? with
  | none => simp [separatorHere?, hs]
  | some n =>
    have := Pattern.consumedAt?_within hs
    have : e.input.length ≤ e.pos := by simpa [atEnd] using h
    omega

/-- A separator that is pending after a layout step was reported by it. -/
theorem LaidOut.pending {o : Option Outcome} (h : LaidOut e o e') {s : Separator}
    (hl : e'.lineState = .atLineEnd) (hs : e'.separatorHere? = some s) : o = some .lineEnd := by
  cases h with
  | indentation => cases hl
  | endOfStream _ he =>
    have hn : e.opened.skipNoise.ended.separatorHere? = none := separatorHere?_atEnd he
    rw [hn] at hs
    cases hs
  | lineEnd => rfl
  | body _ _ hp =>
    rw [separatorHere?, hp] at hs
    cases hs

theorem LaidOut.lineEnd_pending (h : LaidOut e (some .lineEnd) e') :
    e'.lineState = .atLineEnd := by
  cases h with
  | lineEnd => simp

/-- A layout step meets at most one separator, which is pending then. -/
theorem Tracked.laidOut (h : Tracked start met e) (hs : e.Scannable) {o : Option Outcome}
    (hl : LaidOut e o e') : Tracked start (met ++ (met? (.ok o e')).toList) e' := by
  constructor
  · have := h.forward
    have := pos_le_opened e
    have := hl.opened_le
    omega
  · intro s hm
    rcases List.mem_append.mp hm with hm | hm
    · exact (h.passed s hm).laidOut hs hl
    · cases o with
      | none => simp [met?] at hm
      | some outcome =>
        cases outcome with
        | lineEnd => exact passed_here hl.lineEnd_pending (by simpa [met?] using hm)
        | indentation | endOfStream | token => simp [met?] at hm
  · intro hend s hsep
    cases hl.pending hend hsep
    simp [met?, hsep]

theorem Tracked.scanned (h : Tracked start met e) (hs : e.Scannable) {p : Pattern}
    {o : Option Outcome} (hp : Scanned p e o e') :
    Tracked start (met ++ (met? (.ok o e')).toList) e' := by
  cases hp with
  | layout hl => exact h.laidOut hs hl
  | miss hl => exact h.laidOut hs hl
  | @token e₁ n hl hm hne =>
    have ht := h.laidOut hs hl
    have hpos : (e₁.tokenTaken p n).pos = e₁.pos + n := (takeMatch_text p n e₁).2.2.2.1
    have hf := ht.forward
    constructor
    · omega
    · intro s hm
      exact (ht.passed s hm).tokenTaken hne p n
    · simp [tokenTaken]

theorem CharRead.pos_le {c : Option Char} (h : CharRead e c e') : e.pos ≤ e'.pos := by
  have hr : e.released.pos = e.pos := by simp
  cases h with
  | endOfStream => exact Nat.le_of_eq hr.symm
  | @separator c n =>
    change e.pos ≤ e.released.pos + n
    omega
  | plain =>
    change e.pos ≤ e.released.pos + 1
    omega

/-- Reading a character meets no separator, even where it takes one. -/
theorem Tracked.charRead (h : Tracked start met e) {c : Option Char} (hc : CharRead e c e') :
    Tracked start met e' := by
  constructor
  · exact Nat.le_trans h.forward hc.pos_le
  · intro s hm
    exact (h.passed s hm).charRead hc
  · cases hc with
    | endOfStream hn =>
      intro _ s hs
      have hend : e.released.ended.atEnd = true := by
        change e.released.atEnd = true
        simpa [atEnd] using hn
      rw [separatorHere?_atEnd hend] at hs
      cases hs
    | separator => simp [separatorTaken]
    | plain => simp [charTaken]

theorem Tracked.startAt (h : Tracked start met e) {place : Nat} (hp : place ≤ e.pos) :
    Tracked place met e := ⟨hp, h.passed, h.pending⟩

theorem Tracked.congr (h : Tracked start met e) {met' : List Separator}
    (hm : ∀ s, s ∈ met' ↔ s ∈ met) : Tracked start met' e := by
  constructor
  · exact h.forward
  · intro s hs
    exact h.passed s ((hm s).mp hs)
  · intro hl s hs
    exact (hm s).mpr (h.pending hl s hs)

/-- A pending separator was met before it is consumed. -/
theorem Tracked.leaving (h : Tracked start met e) {s : Separator} (hs : e.leaving? = some s) :
    s ∈ met := by
  unfold leaving? at hs
  split at hs
  · next hl => exact h.pending hl.1 s hs
  · cases hs

structure Fresh (e : Engine) : Prop where
  between : e.recognition ≠ .tokenizing
  separator : e.lineState = .atLineEnd → e.separator?.isSome

theorem Fresh.samePlace (h : e.Fresh) (hs : SamePlace e e')
    (hr : e'.recognition ≠ .tokenizing) : e'.Fresh := by
  refine ⟨hr, ?_⟩
  simpa only [separator?, hs.mark, hs.config, hs.input] using h.separator

theorem opened_of_between (hr : e.recognition ≠ .tokenizing) (hs : e.Scannable) :
    e.opened.recognition = .ready :=
  opened_ready (by
    rcases hs with hs | hs | hs
    · exact .inl hs
    · exact absurd hs hr
    · exact .inr hs)

theorem LaidOut.fresh {o : Option Outcome} (h : LaidOut e o e') (hs : e.Scannable)
    (hr : e.recognition ≠ .tokenizing) : e'.Fresh := by
  have hr := opened_of_between hr hs
  have hline := opened_lineState hr
  cases h with
  | indentation =>
    constructor
    · simp [indented]
    · simp [indented]
  | endOfStream =>
    constructor
    · simp [ended, hr]
    · intro hm
      have hm : e.opened.skipNoise.lineState = .atLineEnd := hm
      exact absurd (by simpa using hm) hline
  | lineEnd _ _ hp =>
    constructor
    · simp [hr]
    · intro _
      simpa [separator?] using Option.isSome_of_eq_some hp
  | body =>
    constructor
    · simp [hr]
    · intro hm
      exact absurd (by simpa using hm) hline

theorem LaidOut.body_lineState (h : LaidOut e none e') (hs : e.Scannable)
    (hr : e.recognition ≠ .tokenizing) : e'.lineState ≠ .atLineEnd := by
  have hline := opened_lineState (opened_of_between hr hs)
  cases h with
  | body => simpa using hline

theorem Scanned.fresh {p : Pattern} {o : Option Outcome} (h : Scanned p e o e')
    (hs : e.Scannable) (hr : e.recognition ≠ .tokenizing) : e'.Fresh := by
  cases h with
  | layout hl => exact hl.fresh hs hr
  | miss hl => exact hl.fresh hs hr
  | token =>
    constructor
    · simp [tokenTaken]
    · simp [tokenTaken]

theorem LaidOut.lineEnd_shown (h : LaidOut e (some .lineEnd) e') (hs : e.Scannable)
    (hr : e.recognition ≠ .tokenizing) :
    ∃ s, e'.separatorHere? = some s ∧ e'.lexemeText = s.text ∧ e'.lexemePosition = s.position := by
  have hready := opened_of_between hr hs
  cases h with
  | @lineEnd n _ _ hp =>
    have hready : e.opened.skipNoise.recognition = .ready := by simpa using hready
    generalize e.opened.skipNoise = o at hready hp
    have hp : o.config.eol.consumedAt? o.input o.pos = some n := hp
    refine ⟨⟨String.ofList (o.upcoming n), o.currentPosition⟩, ?_, ?_, ?_⟩
    · simp [separatorHere?, separator?, lineEnded, hready, showSeparator, clearLexeme, pushLexeme,
        hp, upcoming, currentPosition, Mark.position]
    · simp [lineEnded, hready, showSeparator, clearLexeme, pushLexeme, lexemeText, upcoming]
    · simp [lineEnded, hready, showSeparator, clearLexeme, pushLexeme, lexemePosition,
        currentPosition, Mark.position]

/-- A scan breaks the line machine only in the middle of a token. -/
theorem scan_breaks_off {p : Pattern} {fault : LexError} (h : scan p e = .error fault e')
    (hk : fault.kind ≠ .lexical) : e'.recognition = .tokenizing := by
  by_cases hs : e.Scannable
  · obtain ⟨o, e₁, hl⟩ := scanLayout_total hs
    have hlaid := (scanLayout_eq_ok_iff.mp hl).2
    rw [scan_eq p hl] at h
    cases o with
    | some outcome => cases h
    | none =>
      have hu := hlaid.unclaimed hs
      rw [tryPattern_eq p hu] at h
      cases hm : p.matchAt? e₁.input e₁.pos with
      | none => simp [hm] at h
      | some n =>
        by_cases he : e₁.lineState = .atLineEnd
        · simp only [hm, he, ↓reduceIte, EStateM.Result.error.injEq] at h
          rw [← h.2, (takeMatch_text p n e₁).2.2.1]
          apply hu.resolve_left
          intro hready
          cases hlaid with
          | body =>
            have hr : e.opened.recognition = .ready := by simpa using hready
            exact opened_lineState hr (by simpa using he)
        · simp [hm, he] at h
  · obtain ⟨fault₁, hk₁, hf⟩ := scanLayout_refuses hs
    simp only [scan, Program.bind_apply, hf, EStateM.Result.error.injEq] at h
    exact absurd (h.1 ▸ hk₁) hk

theorem Fresh.nextChar_fails (h : e.Fresh) {fault : LexError}
    (hn : nextChar e = .error fault e') : e' = e ∧ fault.kind = .lexical := by
  by_cases hs : e.Scannable
  · rw [nextChar_eq hs] at hn
    cases hc : e.input[e.pos]? with
    | none => simp [hc] at hn
    | some c =>
      cases hp : e.separator? with
      | some n => simp [hc, hp] at hn
      | none =>
        by_cases he : e.lineState = .atLineEnd
        · simpa [hp] using h.separator he
        · simp only [hc, hp, he, ↓reduceIte, reduceCtorEq] at hn
  · obtain ⟨fault₁, hk, hf⟩ := nextChar_refuses hs
    simp only [hf, EStateM.Result.error.injEq] at hn
    exact ⟨hn.2.symm, hn.1 ▸ hk⟩

end Engine
end TableLexer
