import TableLexer.Proofs.Engine.Lexemes

/-!
# Where scanning ends

Scanning ends where there is no character left, and from then on an engine stays where it is, with
one exception: a lexeme that is left can be put back. The scan position moves back to the anchor
then, but scanning has ended for good.
-/
namespace TableLexer.Engine

variable {e e' : Engine} {back : Bool} {c : Command}

def Over (e : Engine) : Prop := e.recognition = .done ∨ e.recognition = .aborted

instance (e : Engine) : Decidable e.Over := inferInstanceAs (Decidable (_ ∨ _))

theorem Over.not_scannable (h : e.Over) : ¬ e.Scannable := by
  rcases h with h | h <;> simp [Scannable, h]

theorem ended_over (e : Engine) : e.ended.Over := by
  unfold ended Over
  dsimp only
  split
  · exact .inr rfl
  · exact .inl rfl

theorem Unclaimed.not_over (h : e.Unclaimed) : ¬ e.Over := by
  rcases h with h | h <;> simp [Over, h]

/-- The scan position lies in the text, and where scanning has ended it is the end of the text. -/
structure Ends (e : Engine) : Prop where
  within : e.pos ≤ e.input.length
  at_end : e.Over → e.pos = e.input.length

theorem ends_of_not_over (hp : e.pos ≤ e.input.length) (h : ¬ e.Over) : e.Ends :=
  ⟨hp, fun hover => absurd hover h⟩

theorem ended_ends (hp : e.pos = e.input.length) : e.ended.Ends :=
  ⟨Nat.le_of_eq hp, fun _ => hp⟩

theorem opened_within (h : e.pos ≤ e.input.length) : e.opened.pos ≤ e.input.length := by
  have hp : e.released.pos = e.pos := by simp
  have hi : e.released.input = e.input := by simp
  unfold opened lineBegun
  split
  · simp only [beginLine]
    cases hs : e.released.separator? with
    | none =>
      have hs' : ({ e.released with lineState := .atLineStart } : Engine).separator? = none := hs
      rw [hs', Option.getD_none]
      omega
    | some n =>
      have hs' : ({ e.released with lineState := .atLineStart } : Engine).separator? = some n := hs
      have hw := (Pattern.consumedAt?_within hs).2
      rw [hs', Option.getD_some]
      rwa [hi] at hw
  · omega

theorem skipNoise_within (h : e.pos ≤ e.input.length) : e.skipNoise.pos ≤ e.input.length := by
  rw [skipNoise_pos]
  cases hn : e.config.noise.consumedAt? e.input e.pos with
  | none => exact h
  | some n => exact (Pattern.consumedAt?_within hn).2

theorem LaidOut.ends {o : Option Outcome} (h : LaidOut e o e') (hs : e.Scannable)
    (hp : e.pos ≤ e.input.length) : e'.Ends := by
  have hin := (opened_text e).2
  have hopen := opened_within hp
  rw [← hin] at hopen
  have hskip := skipNoise_within hopen
  have hunclaimed : e.opened.skipNoise.Unclaimed := by
    simpa [Unclaimed] using opened_unclaimed hs
  rw [← (skipNoise_text e.opened).2.1] at hskip
  cases h with
  | indentation hi =>
    exact ends_of_not_over (indentation?_eq_some hi).2.2 (by simp [Over, indented])
  | endOfStream _ he =>
    have hle : e.opened.skipNoise.input.length ≤ e.opened.skipNoise.pos := by
      simpa [atEnd] using he
    exact ended_ends (Nat.le_antisymm hskip hle)
  | @lineEnd n =>
    obtain ⟨-, hi, hr, hpos, -⟩ := lineEnded_text n e.opened.skipNoise
    refine ends_of_not_over (by rwa [hi, hpos]) ?_
    rw [Over, hr]
    exact hunclaimed.not_over
  | body => exact ends_of_not_over hskip hunclaimed.not_over

theorem takeMatch_ends {p : Pattern} {n : Nat} (hm : p.matchAt? e.input e.pos = some n)
    (hu : e.Unclaimed) : (e.takeMatch p n).Ends := by
  obtain ⟨-, hi, hr, hpos, -⟩ := takeMatch_text p n e
  refine ends_of_not_over ?_ ?_
  · rw [hi, hpos]
    exact Pattern.matchAt?_within hm
  · rw [Over, hr]
    exact hu.not_over

theorem ScanLeft.ends {p : Pattern} (h : ScanLeft p e e') (he : e.Ends) : e'.Ends := by
  cases h with
  | refused => exact he
  | scanned hs hscanned =>
    cases hscanned with
    | layout hl => exact hl.ends hs he.within
    | miss hl => exact hl.ends hs he.within
    | token hl hm =>
      exact ends_of_not_over (takeMatch_ends hm (hl.unclaimed hs)).within
        (by simp [Over, tokenTaken])
  | brokenOff hs hl hm => exact takeMatch_ends hm (hl.unclaimed hs)

theorem CharLeft.ends (h : CharLeft e e') (he : e.Ends) : e'.Ends := by
  have hp : e.released.pos = e.pos := by simp
  have hi : e.released.input = e.input := by simp
  have hwithin := he.within
  cases h with
  | refused => exact he
  | read hs hread =>
    cases hread with
    | endOfStream hnone =>
      have hle : e.input.length ≤ e.pos := List.getElem?_eq_none_iff.mp hnone
      exact ended_ends (by rw [hp, hi]; omega)
    | @separator _ n _ hsep =>
      have hw := (Pattern.consumedAt?_within hsep).2
      refine ends_of_not_over ?_ (by simp [Over, separatorTaken])
      change e.released.pos + n ≤ e.released.input.length
      rwa [hp, hi]
    | plain hc =>
      obtain ⟨hlt, -⟩ := List.getElem?_eq_some_iff.mp hc
      refine ends_of_not_over ?_ (by simp [Over, charTaken])
      change e.released.pos + 1 ≤ e.released.input.length
      rw [hp, hi]
      omega
  | brokenOff hs hc =>
    obtain ⟨hlt, -⟩ := List.getElem?_eq_some_iff.mp hc
    refine ends_of_not_over ?_ (released_unclaimed hs).not_over
    change e.released.pos + 1 ≤ e.released.input.length
    rw [hp, hi]
    omega

def Command.Forward : Command → Prop
  | .setInput _ | .restoreSnapshot | .undoScan => False
  | _ => True

theorem next_ends (h : e.Ends) (hc : c.Forward) : (e.next c).Ends := by
  cases c with
  | setInput | restoreSnapshot | undoScan => exact hc.elim
  | scan p => exact (scan_left p e).ends h
  | nextChar => exact (nextChar_left e).ends h
  | scanLayout =>
    by_cases hs : e.Scannable
    · obtain ⟨o, e', hl⟩ := scanLayout_total hs
      simp only [next, hl]
      exact (scanLayout_eq_ok_iff.mp hl).2.ends hs h.within
    · obtain ⟨fault, -, hf⟩ := scanLayout_refuses hs
      simpa [next, hf] using h
  | clearLexeme | takeToken | addSnapshot | popSnapshot => exact ⟨h.within, h.at_end⟩
  | markRecognized | markFailed | resetRecognition =>
    simp only [next, markRecognized_eq, markFailed_eq, resetRecognition_eq, Program.final_ok,
      recognizedNow, failedNow, rested]
    split
    · exact ends_of_not_over h.within (by simp [Over])
    · exact h

/-- After the end such commands move nothing, and at most the lexeme is dropped. -/
theorem Over.next (h : e.Over) (hc : c.Forward) :
    (e.next c).toMark = e.toMark ∧ (e.next c).recognition = e.recognition ∧
      (e.next c).input = e.input ∧ (e.lexeme = [] → (e.next c).lexeme = []) := by
  have hrefused := h.not_scannable
  cases c with
  | setInput | restoreSnapshot | undoScan => exact hc.elim
  | scan p =>
    obtain ⟨fault, -, hf⟩ := scanLayout_refuses hrefused
    simp [Engine.next, scan, hf]
  | nextChar =>
    obtain ⟨fault, -, hf⟩ := nextChar_refuses hrefused
    simp [Engine.next, hf]
  | scanLayout =>
    obtain ⟨fault, -, hf⟩ := scanLayout_refuses hrefused
    simp [Engine.next, hf]
  | clearLexeme | takeToken => exact ⟨rfl, rfl, rfl, fun _ => rfl⟩
  | addSnapshot | popSnapshot => exact ⟨rfl, rfl, rfl, id⟩
  | markRecognized | markFailed | resetRecognition =>
    rcases h with h | h <;> simp [Engine.next, markRecognized_eq, recognizedNow, Unclaimed,
      markFailed_eq, failedNow, resetRecognition_eq, rested, h]

theorem Told.anchor_le (h : e.Told) (hne : e.lexeme ≠ []) : e.anchor.pos ≤ e.pos := by
  rcases h.lexeme hne with ⟨hshows, -⟩ | ⟨gaps, hspelled⟩
  · exact Nat.le_of_eq (congrArg Mark.pos hshows.anchored)
  · exact Nat.le_of_lt hspelled.consumed

/-- At the end of the text there is no separator, so the lexeme was read before it. -/
theorem Told.anchor_lt (h : e.Told) (hne : e.lexeme ≠ []) (hend : e.pos = e.input.length) :
    e.anchor.pos < e.pos := by
  rcases h.lexeme hne with ⟨hshows, -⟩ | ⟨gaps, hspelled⟩
  · obtain ⟨n, hn, -⟩ := hshows.separator
    have := Pattern.consumedAt?_within hn
    omega
  · exact hspelled.consumed

theorem undone_pos (hne : e.lexeme ≠ []) : e.undone.pos = e.anchor.pos := by
  have hx : e.lexeme.isEmpty = false := by simpa using hne
  simp only [undone, hx, Bool.false_eq_true, ↓reduceIte, rested]
  split <;> rfl

theorem undone_over : e.undone.Over ↔ e.Over := by
  unfold undone rested Over
  split
  · exact Iff.rfl
  · dsimp only
    split
    · next hr => rcases hr with hr | hr | hr <;> simp [hr]
    · exact Iff.rfl

/-- Where an engine stands that has never returned to a snapshot. Unless a lexeme was put back
after scanning had ended, it stands at the end of the text if scanning has ended; otherwise it
stands before the end for good. -/
structure Sited (back : Bool) (e : Engine) : Prop where
  recorded : e.Recorded
  ends : back = false → e.Ends
  returned : back = true → e.Over ∧ e.lexeme = [] ∧ e.pos < e.input.length

theorem Sited.next (h : e.Sited back) (hc : c.Forward) : (e.next c).Sited back := by
  refine ⟨next_recorded h.recorded c, fun hb => next_ends (h.ends hb) hc, fun hb => ?_⟩
  obtain ⟨hover, hlex, hlt⟩ := h.returned hb
  obtain ⟨hmark, hr, hi, hx⟩ := hover.next hc
  refine ⟨?_, hx hlex, ?_⟩
  · rwa [Over, hr]
  · rw [hi]
    exact lt_of_eq_of_lt (congrArg Mark.pos hmark) hlt

theorem Sited.after (h : e.Sited back) {cs : List Command} (hcs : ∀ c ∈ cs, c.Forward) :
    (e.after cs).Sited back := by
  induction cs generalizing e with
  | nil => exact h
  | cons c cs ih =>
    obtain ⟨hc, hrest⟩ := List.forall_mem_cons.mp hcs
    exact ih (h.next hc) hrest

theorem Sited.undone (h : e.Sited back) :
    e.undone.Sited (back || decide (e.Over ∧ e.lexeme ≠ [])) := by
  have hrecorded : e.undone.Recorded := by
    simpa [Engine.next, undoScan_eq] using next_recorded h.recorded .undoScan
  have hinput := (undone_sameText e).input
  have htold := h.recorded.current
  by_cases hx : e.lexeme = []
  · have hsame : e.undone = e := by simp [Engine.undone, hx]
    simpa [hsame, hx] using h
  · -- Putting back leaves no lexeme, so after the end it happens once at most.
    have hfresh : back = false := by
      cases hb : back with
      | false => rfl
      | true => exact absurd (h.returned hb).2.1 hx
    have hends := h.ends hfresh
    subst hfresh
    refine ⟨hrecorded, fun hb => ?_, fun hb => ?_⟩
    · have hover : ¬ e.Over := by simpa [hx] using hb
      refine ends_of_not_over ?_ fun hend => hover (undone_over.mp hend)
      rw [hinput, undone_pos hx]
      exact Nat.le_trans (htold.anchor_le hx) hends.within
    · have hover : e.Over := by simpa [hx] using hb
      refine ⟨undone_over.mpr hover, undone_lexeme e, ?_⟩
      rw [hinput, undone_pos hx, ← hends.at_end hover]
      exact htold.anchor_lt hx (hends.at_end hover)

theorem new_sited (config : EngineConfig) : (new config).Sited false :=
  ⟨new_recorded config,
    fun _ => ends_of_not_over (Nat.le_refl _) (by simp [Over, new, Scan.initial]),
    fun hb => nomatch hb⟩

theorem restarted_sited (text : List Char) (e : Engine) : (e.restarted text).Sited false :=
  ⟨⟨Scan.told_of_no_lexeme rfl, by simp [restarted]⟩,
    fun _ => ends_of_not_over (Nat.zero_le _) (by simp [Over, restarted, Scan.initial]),
    fun hb => nomatch hb⟩

end TableLexer.Engine
