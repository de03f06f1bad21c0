import TableLexer.Proofs.EmptyMatches
import TableLexer.Proofs.Rescans

/-!
# The default noise is skipped in one run

A run of the default noise leaves neither noise nor indentation behind, and no noise starts where
a line ends. So to skip noise once is to skip all of it, and a layout step that reports nothing
leaves nothing to another. One that reports something is not finished: the next step lets go of
what was reported, unless that is a line end in the middle of a token.
-/
namespace TableLexer

namespace Pattern

open Text (placeAt?)

variable {p q : Pattern} {text : List Char} {i pos n bytes : Nat}

theorem matchBytesAt?_eq_none (hi : placeAt? text pos = some i) (h : p.matchAt? text i = none) :
    p.matchBytesAt? text pos = none := by
  rw [matchBytesAt?, hi]
  simp [h]

theorem consumedAt?_of_bytes (h : p.matchBytesAt? text pos = some bytes) (hbytes : 0 < bytes) :
    ∃ i n, placeAt? text pos = some i ∧ p.consumedAt? text i = some n ∧
      placeAt? text (pos + bytes) = some (i + n) := by
  obtain ⟨i, n, hi, hn, hstop⟩ := matchBytesAt?_eq_some_iff.mp h
  have hpos : n ≠ 0 := by
    rintro rfl
    have h₁ := (Text.placeAt?_eq_some_iff.mp hi).2
    have h₂ := (Text.placeAt?_eq_some_iff.mp hstop).2
    rw [Nat.add_zero, h₁] at h₂
    omega
  exact ⟨i, n, hi, consumedAt?_eq_some.mpr ⟨hn, Nat.pos_of_ne_zero hpos⟩, hstop⟩

/-- A pattern that always consumes does not match where it would consume nothing. -/
theorem Consumes.matchAt?_eq_none (hp : p.Consumes) (hempty : p.matchesEmpty = false)
    (h : p.consumedAt? text i = none) : p.matchAt? text i = none := by
  cases hn : p.matchAt? text i with
  | none => rfl
  | some n =>
    have hc := consumedAt?_eq_some.mpr ⟨hn, hp hempty text i n hn⟩
    rw [h] at hc
    cases hc

end Pattern

namespace LayoutPattern

variable {text : List Char} {i : Nat}

theorem commentsAndBlanks_matchAt? (h : commentsAndBlanks.consumedAt? text i = none) :
    commentsAndBlanks.matchAt? text i = none :=
  (Pattern.ignoresEdges_of_looks (by decide)).consumes.matchAt?_eq_none (by decide) h

theorem spacesAndTabs_matchAt? (h : spacesAndTabs.consumedAt? text i = none) :
    spacesAndTabs.matchAt? text i = none :=
  (Pattern.ignoresEdges_of_looks (by decide)).consumes.matchAt?_eq_none (by decide) h

end LayoutPattern

namespace Engine

variable {e e' : Engine} {o : Option Outcome}

theorem skipNoise_settled (hc : e.config.NoiseSettles) :
    e.skipNoise.config.noise.consumedAt? e.skipNoise.input e.skipNoise.pos = none := by
  obtain ⟨hconfig, hinput, -⟩ := skipNoise_text e
  rw [hconfig, hinput, skipNoise_pos]
  cases hn : e.config.noise.consumedAt? e.input e.pos with
  | none => exact hn
  | some n => exact (hc _ _ _ hn).1

theorem LaidOut.steady_iff (hc : e.config.NoiseSettles) (ha : e.config.Apart)
    (h : LaidOut e o e') :
    Steady o e' ↔ ∀ x, o = some x → x = .lineEnd ∧ e'.recognition = .tokenizing := by
  constructor
  · rintro ⟨-, ⟨rfl, -⟩ | ⟨rfl, hr⟩⟩ x hx
    · cases hx
    · cases hx
      exact ⟨rfl, hr⟩
  · intro hx
    cases o with
    | none => exact h.steady hc
    | some x =>
      obtain ⟨rfl, hr⟩ := hx x rfl
      refine ⟨?_, .inr ⟨rfl, hr⟩⟩
      cases h with
      | @lineEnd n _ _ hsep =>
        -- the separator is still ahead, and no noise starts at one
        have hconfig : e.opened.skipNoise.config = e.config := by simp
        have hsome := Option.isSome_of_eq_some hsep
        rw [separator?, hconfig] at hsome
        simpa [hconfig] using ha _ _ hsome

/-- Exactly the steps that report something else than a line end within a token are not the same
when they are made twice. -/
theorem scanLayout_twice_iff (hc : e.config.NoiseSettles) (ha : e.config.Apart) :
    (scanLayout >>= fun _ => scanLayout) e = scanLayout e ↔
      ∀ x e', scanLayout e = .ok (some x) e' → x = .lineEnd ∧ e'.recognition = .tokenizing := by
  rw [Program.bind_apply]
  cases h : scanLayout e with
  | error fault e' => simp
  | ok o e' =>
    obtain ⟨hs, hl⟩ := scanLayout_eq_ok_iff.mp h
    have htwice : scanLayout e' = .ok o e' ↔ Steady o e' :=
      ⟨fun h' => (scanLayout_again_iff h).mpr ⟨o, h'⟩, Steady.scanLayout_again hs hl⟩
    rw [htwice, hl.steady_iff hc ha]
    simp

open LayoutPattern (commentsAndBlanks spacesAndTabs lineSeparator)

/-- Where the default noise has matched, neither it nor the default indentation matches behind it,
and it never matches where a line ends. So an engine with the default patterns skips all the noise
at once, and what it reports tells whether a second layout step is the same as the first. -/
theorem default_noise_skipped_once :
    (∀ text pos n, 0 < n → commentsAndBlanks.matchBytesAt? text pos = some n →
      commentsAndBlanks.matchBytesAt? text (pos + n) = none ∧
        spacesAndTabs.matchBytesAt? text (pos + n) = none) ∧
    (∀ text pos n, 0 < n → lineSeparator.matchBytesAt? text pos = some n →
      commentsAndBlanks.matchBytesAt? text pos = none) ∧
    ∀ e : Engine, e.config = {} →
      commentsAndBlanks.consumedAt? e.skipNoise.input e.skipNoise.pos = none ∧
      e.skipNoise.skipNoise = e.skipNoise ∧
      ((scanLayout >>= fun _ => scanLayout) e = scanLayout e ↔
        ∀ x e', scanLayout e = .ok (some x) e' → x = .lineEnd ∧ e'.recognition = .tokenizing) := by
  refine ⟨?_, ?_, ?_⟩
  · intro text pos n hn h
    obtain ⟨i, m, -, hm, hstop⟩ := Pattern.consumedAt?_of_bytes h hn
    obtain ⟨hnoise, hindent⟩ := EngineConfig.default_settles text i m hm
    constructor
    · exact Pattern.matchBytesAt?_eq_none hstop (LayoutPattern.commentsAndBlanks_matchAt? hnoise)
    · exact Pattern.matchBytesAt?_eq_none hstop
        (LayoutPattern.spacesAndTabs_matchAt? (hindent _ rfl))
  · intro text pos n hn h
    obtain ⟨i, m, hi, hm, -⟩ := Pattern.consumedAt?_of_bytes h hn
    have hnone := EngineConfig.default_apart text i (Option.isSome_of_eq_some hm)
    exact Pattern.matchBytesAt?_eq_none hi (LayoutPattern.commentsAndBlanks_matchAt? hnone)
  · intro e he
    have hsettles : e.config.NoiseSettles := he ▸ EngineConfig.default_settles
    have hsettled := skipNoise_settled hsettles
    refine ⟨?_, skipNoise_eq_self hsettled, ?_⟩
    · rwa [(skipNoise_text e).1, he] at hsettled
    · exact scanLayout_twice_iff hsettles (he ▸ EngineConfig.default_apart)

/-- A comment runs into another and into blanks, and the line ends within a token. -/
theorem token_at_line_end_settled :
    let text := ['a', '\n', '/', '*', '/', '*', '/', '#', '*', '/', ' ', '#']
    let e := (new {}).after [.setInput text, .nextChar]
    (commentsAndBlanks.matchBytesAt? text 2 = some 10 ∧
      commentsAndBlanks.matchBytesAt? text 12 = none) ∧
    (lineSeparator.matchBytesAt? text 1 = some 1 ∧
      commentsAndBlanks.matchBytesAt? text 1 = none) ∧
    Program.value? (scanLayout e) = some (some .lineEnd) ∧
    (scanLayout >>= fun _ => scanLayout) e = scanLayout e := by
  intro text e
  obtain ⟨hnoise, hline, hengine⟩ := default_noise_skipped_once
  have hrun : commentsAndBlanks.matchBytesAt? text 2 = some 10 := by decide +kernel
  have hsep : lineSeparator.matchBytesAt? text 1 = some 1 := by decide +kernel
  have hvalue : Program.value? (scanLayout e) = some (some .lineEnd) := by decide +kernel
  have hr : (Program.final (scanLayout e)).recognition = .tokenizing := by decide +kernel
  have hconfig : e.config = {} := after_config (new {}) _
  refine ⟨⟨hrun, (hnoise text 2 10 (by decide) hrun).1⟩,
    ⟨hsep, hline text 1 1 (by decide) hsep⟩, hvalue, ?_⟩
  refine (hengine e hconfig).2.2.mpr fun x e' h => ?_
  rw [h] at hvalue hr
  exact ⟨by simpa [Program.value?] using hvalue, hr⟩

/-- Between tokens the first step reports the end of the line and the second one leaves it. -/
theorem second_step_leaves_line :
    let e := (new {}).after [.setInput ['\n']]
    e.config = {} ∧ Program.value? (scanLayout e) = some (some .lineEnd) ∧
      Program.value? ((scanLayout >>= fun _ => scanLayout) e) = some (some .endOfStream) ∧
      (scanLayout >>= fun _ => scanLayout) e ≠ scanLayout e := by
  intro e
  have honce : Program.value? (scanLayout e) = some (some .lineEnd) := by decide +kernel
  have htwice : Program.value? ((scanLayout >>= fun _ => scanLayout) e) =
      some (some .endOfStream) := by decide +kernel
  refine ⟨rfl, honce, htwice, fun heq => ?_⟩
  rw [heq, honce] at htwice
  cases htwice

end Engine
end TableLexer
