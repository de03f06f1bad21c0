import TableLexer.Proofs.Engine.Operations

/-!
# What is left to do

Nothing but putting the lexeme back and returning to a snapshot adds to what is left to do. A
match that consumes, and a character read, take something away, and so does noticing the end of
the text, where there is no character left.
-/
namespace TableLexer

/-- The pattern consumes whenever it matches, if it does not match the empty text. -/
def Pattern.Consumes (p : Pattern) : Prop :=
  p.matchesEmpty = false → ∀ text i n, p.matchAt? text i = some n → 0 < n

theorem Pattern.char_consumes (c : Char) : (char c).Consumes := by
  intro _ text i n h
  simp only [matchAt?, Option.ite_none_left_eq_some, Option.ite_none_right_eq_some,
    Option.some.injEq] at h
  omega

namespace Engine

/-- Twice what is left of the text, and one more until scanning has ended. -/
def toGo (e : Engine) : Nat :=
  2 * (e.input.length - e.pos) + if e.recognition.isTerminal then 0 else 1

variable {e e' : Engine} {p : Pattern}

theorem Scannable.not_terminal (h : e.Scannable) : e.recognition.isTerminal = false := by
  rcases h with h | h | h <;> simp [h, RecognitionState.isTerminal]

theorem Scannable.released_not_terminal (h : e.Scannable) :
    e.released.recognition.isTerminal = false := by
  rcases released_unclaimed h with h | h <;> simp [h, RecognitionState.isTerminal]

theorem toGo_le (hi : e'.input = e.input) (hp : e.pos ≤ e'.pos)
    (hr : e.recognition.isTerminal = false) : e'.toGo ≤ e.toGo := by
  unfold toGo
  rw [hi, hr]
  split <;> simp only [Bool.false_eq_true, ↓reduceIte] <;> omega

theorem toGo_lt_of_pos (hi : e'.input = e.input) (hp : e.pos < e'.pos)
    (hw : e'.pos ≤ e.input.length) : e'.toGo < e.toGo := by
  unfold toGo
  rw [hi]
  split <;> split <;> omega

theorem toGo_lt_of_end (hi : e'.input = e.input) (hp : e.pos ≤ e'.pos)
    (hr : e.recognition.isTerminal = false) (hr' : e'.recognition.isTerminal = true) :
    e'.toGo < e.toGo := by
  unfold toGo
  rw [hi, hr, hr']
  simp only [↓reduceIte, Bool.false_eq_true]
  omega

theorem pos_lt_of_toGo_lt (hi : e'.input = e.input) (h : e'.toGo < e.toGo) :
    e.pos < e'.pos ∨ e.recognition.isTerminal = false ∧ e'.recognition.isTerminal = true := by
  unfold toGo at h
  rw [hi] at h
  cases hr : e.recognition.isTerminal <;> cases hr' : e'.recognition.isTerminal <;>
    simp only [hr, hr', Bool.false_eq_true, ↓reduceIte] at h
  · left
    omega
  · exact .inr ⟨rfl, rfl⟩
  · left
    omega
  · left
    omega

theorem ended_terminal (e : Engine) : e.ended.recognition.isTerminal = true := by
  unfold ended
  dsimp only
  split <;> rfl

theorem released_toGo (e : Engine) : e.released.toGo = e.toGo := by
  unfold released
  split
  · next h => simp [toGo, h, RecognitionState.isTerminal]
  · rfl

theorem LaidOut.pos_le {o : Option Outcome} (h : LaidOut e o e') : e.pos ≤ e'.pos := by
  have ho := pos_le_opened e
  have hl := h.opened_le
  omega

theorem LaidOut.toGo_le {o : Option Outcome} (h : LaidOut e o e') (hs : e.Scannable) :
    e'.toGo ≤ e.toGo := Engine.toGo_le h.sameText.input h.pos_le hs.not_terminal

theorem tokenTaken_text (p : Pattern) (n : Nat) (e : Engine) :
    (e.tokenTaken p n).input = e.input ∧ (e.tokenTaken p n).pos = e.pos + n := by
  obtain ⟨-, hi, -, hp, -⟩ := takeMatch_text p n e
  exact ⟨hi, hp⟩

theorem scan_toGo (p : Pattern) (e : Engine) : (Program.final (scan p e)).toGo ≤ e.toGo := by
  by_cases hs : e.Scannable
  · obtain ⟨o, e₁, hl⟩ := scanLayout_total hs
    have hlaid := (scanLayout_eq_ok_iff.mp hl).2
    have hle := hlaid.pos_le
    rw [scan_eq p hl]
    cases o with
    | some outcome => exact hlaid.toGo_le hs
    | none =>
      rw [tryPattern_eq p (hlaid.unclaimed hs)]
      dsimp only
      split
      · exact hlaid.toGo_le hs
      · next n _ =>
        split
        · obtain ⟨-, hi, -, hp, -⟩ := takeMatch_text p n e₁
          refine toGo_le (hi.trans hlaid.sameText.input) ?_ hs.not_terminal
          rw [Program.final_error, hp]
          omega
        · obtain ⟨hi, hp⟩ := tokenTaken_text p n e₁
          refine toGo_le (hi.trans hlaid.sameText.input) ?_ hs.not_terminal
          rw [Program.final_ok, hp]
          omega
  · obtain ⟨fault, -, hf⟩ := scanLayout_refuses hs
    rw [scan, Program.bind_apply, hf]
    exact Nat.le_refl _

theorem scan_token_toGo (hp : p.Consumes) (hm : p.matchesEmpty = false)
    (h : scan p e = .ok (some .token) e') : e'.toGo < e.toGo := by
  obtain ⟨hs, hscan⟩ := scan_cases h
  cases hscan with
  | layout hl => cases hl
  | @token e₁ n hl hmatch _ =>
    obtain ⟨hi, hpos⟩ := tokenTaken_text p n e₁
    have hn := hp hm _ _ n hmatch
    have hw := Pattern.matchAt?_within hmatch
    have hle := hl.pos_le
    have hinput := hl.sameText.input
    rw [hinput] at hw
    refine toGo_lt_of_pos (hi.trans hinput) ?_ ?_ <;> omega

/-- A scan that ends scanning takes the last of what is left away. -/
theorem scan_ends_toGo {o : Option Outcome} (h : scan p e = .ok o e')
    (hr : e'.recognition.isTerminal = true) : e'.toGo < e.toGo := by
  obtain ⟨hs, hscan⟩ := scan_cases h
  cases hscan with
  | layout hl => exact toGo_lt_of_end hl.sameText.input hl.pos_le hs.not_terminal hr
  | miss hl => exact toGo_lt_of_end hl.sameText.input hl.pos_le hs.not_terminal hr
  | token => cases hr

theorem CharRead.toGo_lt {c : Option Char} (h : CharRead e c e') (hs : e.Scannable) :
    e'.toGo < e.toGo := by
  have hr := released_text e
  have hterm := hs.released_not_terminal
  have hplace : e.released.pos = e.pos := by simp
  rw [← released_toGo e]
  cases h with
  | endOfStream =>
    exact toGo_lt_of_end (e := e.released) rfl (Nat.le_refl _) hterm (ended_terminal _)
  | @separator c n hc hsep =>
    obtain ⟨hn, hw⟩ := Pattern.consumedAt?_within hsep
    refine toGo_lt_of_pos (e := e.released) rfl ?_ ?_ <;> simp only [separatorTaken, hr] <;> omega
  | plain hc =>
    obtain ⟨hw, -⟩ := List.getElem?_eq_some_iff.mp hc
    refine toGo_lt_of_pos (e := e.released) rfl ?_ ?_ <;>
      simp only [charTaken, takeChars, advance, pushLexeme, hr] <;> omega

theorem nextChar_toGo_lt {c : Option Char} (h : nextChar e = .ok c e') : e'.toGo < e.toGo := by
  obtain ⟨hs, hc⟩ := nextChar_cases h
  exact hc.toGo_lt hs

theorem nextChar_toGo (e : Engine) : (Program.final (nextChar e)).toGo ≤ e.toGo := by
  by_cases hs : e.Scannable
  · have hterm := hs.released_not_terminal
    rw [← released_toGo e]
    cases hn : nextChar e with
    | ok c e' =>
      have hlt := nextChar_toGo_lt hn
      rw [← released_toGo e] at hlt
      exact Nat.le_of_lt hlt
    | error fault e' =>
      rw [nextChar_eq hs] at hn
      split at hn
      · cases hn
      · split at hn
        · cases hn
        · split at hn
          · cases hn
            exact toGo_le rfl (Nat.le_add_right _ _) hterm
          · cases hn
  · obtain ⟨fault, -, hf⟩ := nextChar_refuses hs
    rw [hf]
    exact Nat.le_refl _

theorem recognizedNow_toGo (e : Engine) : e.recognizedNow.toGo = e.toGo := by
  unfold recognizedNow
  split
  · next h => rcases h with h | h <;> simp [toGo, h, RecognitionState.isTerminal]
  · rfl

theorem failedNow_toGo (e : Engine) : e.failedNow.toGo ≤ e.toGo := by
  unfold failedNow
  split
  · next h =>
    have hr : e.recognition.isTerminal = false := by
      rcases h with h | h <;> simp [h, RecognitionState.isTerminal]
    exact toGo_le (e := e) rfl (Nat.le_refl _) hr
  · exact Nat.le_refl _

end Engine
end TableLexer
