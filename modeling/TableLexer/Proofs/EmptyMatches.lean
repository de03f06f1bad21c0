import TableLexer.Proofs.BytePlaces
import TableLexer.Proofs.Reentry

/-!
# Matches that consume nothing

An expression consumes nothing only where the conditions on the place allow it to, and the empty
text tells whether they may. It answers for every place of every text, except that no word begins
or ends in it: what asks for the edge of a word can consume nothing elsewhere, and fails there.
-/
namespace TableLexer

namespace Regex

/-- Whether the expression can be passed without consuming anything where the conditions are as
`holds` says. -/
def nullAt (holds : Look → Bool) : Regex → Bool
  | empty => true
  | set _ => false
  | look l => holds l
  | seq r s => r.nullAt holds && s.nullAt holds
  | alt r s => r.nullAt holds || s.nullAt holds
  | rep least _ _ body => least == 0 || body.nullAt holds

def looks : Regex → List Look
  | empty | set _ => []
  | look l => [l]
  | seq r s | alt r s => r.looks ++ s.looks
  | rep _ _ _ body => body.looks

def WordTest.asksEdge : WordTest → Bool
  | boundary | starts | ends => true
  | inside | startsHalf | endsHalf => false

def Look.asksEdge : Look → Bool
  | word test | asciiWord test => test.asksEdge
  | textStart | textEnd | lineStart | lineEnd | crlfStart | crlfEnd => false

abbrev Cursor.blank : Cursor := .ofText [] 0

theorem Look.holds_blank (l : Look) : l.holds .blank = !l.asksEdge := by
  cases l with
  | word test | asciiWord test => cases test <;> rfl
  | _ => rfl

/-- Fewer conditions that hold never make an expression consume less. -/
theorem nullAt_mono {f g : Look → Bool} {r : Regex} (hall : ∀ l ∈ r.looks, f l → g l)
    (h : r.nullAt f = true) : r.nullAt g = true := by
  induction r with
  | empty => rfl
  | set s => cases h
  | look l => exact hall l (List.mem_singleton_self l) h
  | seq r s ihr ihs =>
    obtain ⟨hr, hs⟩ := List.forall_mem_append.mp hall
    obtain ⟨h₁, h₂⟩ := Bool.and_eq_true_iff.mp h
    exact Bool.and_eq_true_iff.mpr ⟨ihr hr h₁, ihs hs h₂⟩
  | alt r s ihr ihs =>
    obtain ⟨hr, hs⟩ := List.forall_mem_append.mp hall
    exact Bool.or_eq_true_iff.mpr ((Bool.or_eq_true_iff.mp h).imp (ihr hr) (ihs hs))
  | rep least most greedy body ih =>
    exact Bool.or_eq_true_iff.mpr ((Bool.or_eq_true_iff.mp h).imp_right (ih hall))

def Cursor.Goes (stays : Cursor → Bool) (cur next : Cursor) : Prop :=
  cur.offset < next.offset ∨ next = cur ∧ stays cur = true

/-- A step that succeeds has handed on a cursor that stands further on or may stay. -/
def Moves {β : Type} (stays : Cursor → Bool) (step : Step β) : Prop :=
  ∀ k cur b, step k cur = some b → ∃ next, cur.Goes stays next ∧ k next = some b

namespace Cursor.Goes

variable {f g : Cursor → Bool} {a b c : Cursor}

theorem here (h : f a = true) : a.Goes f a := .inr ⟨rfl, h⟩

theorem mono (h : a.Goes f b) (hfg : f a = true → g a = true) : a.Goes g b :=
  h.imp_right fun hstays => ⟨hstays.1, hfg hstays.2⟩

theorem le (h : a.Goes f b) : a.offset ≤ b.offset := by
  rcases h with hlt | ⟨rfl, -⟩
  · exact Nat.le_of_lt hlt
  · exact Nat.le_refl _

theorem trans (h : a.Goes f b) (k : b.Goes g c) : a.Goes (fun cur => f cur && g cur) c := by
  rcases h with hlt | ⟨rfl, hf⟩
  · exact .inl (Nat.lt_of_lt_of_le hlt k.le)
  · rcases k with hlt | ⟨rfl, hg⟩
    · exact .inl hlt
    · exact .inr ⟨rfl, Bool.and_eq_true_iff.mpr ⟨hf, hg⟩⟩

end Cursor.Goes

section Rounds

variable {β : Type} {step : Step β} {stays : Cursor → Bool}

theorem times_moves (hs : Moves stays step) (n : Nat) :
    Moves (fun cur => n == 0 || stays cur) (times step n) := by
  induction n with
  | zero => intro k cur b h; exact ⟨cur, .here rfl, h⟩
  | succ n ih =>
    intro k cur b h
    obtain ⟨mid, hmid, h⟩ := hs _ _ _ h
    obtain ⟨next, hnext, h⟩ := ih _ _ _ h
    refine ⟨next, (hmid.trans hnext).mono fun hboth => ?_, h⟩
    rw [(Bool.and_eq_true_iff.mp hboth).1, Bool.or_true]

theorem upTo_moves (hs : Moves stays step) (greedy : Bool) (n : Nat) :
    Moves (fun _ => true) (upTo step greedy n) := by
  induction n with
  | zero => intro k cur b h; exact ⟨cur, .here rfl, h⟩
  | succ n ih =>
    intro k cur b h
    rcases choose_cases h with h | h
    · obtain ⟨mid, hmid, h⟩ := hs _ _ _ h
      obtain ⟨next, hnext, h⟩ := ih _ _ _ h
      exact ⟨next, (hmid.trans hnext).mono fun _ => rfl, h⟩
    · exact ⟨cur, .here rfl, h⟩

theorem again_moves (hs : Moves stays step) (greedy : Bool) (k : Cursor → Option β)
    (room : Nat) (cur : Cursor) (b : β) (h : again step greedy k room cur = some b) :
    ∃ next, cur.Goes (fun _ => true) next ∧ k next = some b := by
  induction room generalizing cur with
  | zero => exact ⟨cur, .here rfl, h⟩
  | succ room ih =>
    rcases choose_cases h with h | h
    · obtain ⟨mid, hmid, h⟩ := hs _ _ _ h
      by_cases hstuck : mid.offset = cur.offset
      · -- a round behind another one has to consume something
        simp [hstuck] at h
      · rw [if_neg hstuck] at h
        obtain ⟨next, hnext, h⟩ := ih mid h
        exact ⟨next, (hmid.trans hnext).mono fun _ => rfl, h⟩
    · exact ⟨cur, .here rfl, h⟩

theorem plus_moves (hs : Moves stays step) (greedy : Bool) : Moves stays (plus step greedy) := by
  intro k cur b h
  obtain ⟨mid, hmid, h⟩ := hs _ _ _ h
  by_cases hstuck : mid.offset = cur.offset
  · rw [if_pos hstuck] at h
    exact ⟨mid, hmid, h⟩
  · rw [if_neg hstuck] at h
    obtain ⟨next, hnext, h⟩ := again_moves hs greedy k _ mid b h
    exact ⟨next, (hmid.trans hnext).mono (by simp), h⟩

theorem star_moves (hs : Moves stays step) (greedy : Bool) :
    Moves (fun _ => true) (star step greedy) := by
  intro k cur b h
  rcases choose_cases h with h | h
  · obtain ⟨next, hnext, h⟩ := plus_moves hs greedy k cur b h
    exact ⟨next, hnext.mono fun _ => rfl, h⟩
  · exact ⟨cur, .here rfl, h⟩

theorem repeated_moves (hs : Moves stays step) (greedy : Bool) (least : Nat)
    (most : Option Nat) :
    Moves (fun cur => least == 0 || stays cur) (repeated step greedy least most) := by
  intro k cur b h
  rcases most with _ | most
  · rcases least with _ | n
    · exact star_moves hs greedy k cur b h
    · obtain ⟨mid, hmid, h⟩ := times_moves hs n _ _ _ h
      obtain ⟨next, hnext, h⟩ := plus_moves hs greedy _ _ _ h
      refine ⟨next, (hmid.trans hnext).mono fun hboth => ?_, h⟩
      rw [(Bool.and_eq_true_iff.mp hboth).2, Bool.or_true]
  · obtain ⟨mid, hmid, h⟩ := times_moves hs least _ _ _ h
    obtain ⟨next, hnext, h⟩ := upTo_moves hs greedy _ _ _ _ h
    exact ⟨next, (hmid.trans hnext).mono (by simp), h⟩

end Rounds

theorem run_moves {β : Type} (r : Regex) :
    Moves (fun cur => r.nullAt (·.holds cur)) (run (β := β) r) := by
  induction r with
  | empty => intro k cur b h; exact ⟨cur, .here rfl, h⟩
  | set s =>
    intro k cur b h
    cases hr : cur.rest with
    | nil => simp [run, hr] at h
    | cons c rest =>
      simp only [run, hr, Option.ite_none_right_eq_some] at h
      exact ⟨cur.advance c rest, .inl (Nat.lt_succ_self _), h.2⟩
  | look l =>
    intro k cur b h
    simp only [run, Option.ite_none_right_eq_some] at h
    exact ⟨cur, .here h.1, h.2⟩
  | seq r s ihr ihs =>
    intro k cur b h
    obtain ⟨mid, hmid, h⟩ := ihr _ _ _ h
    obtain ⟨next, hnext, h⟩ := ihs _ _ _ h
    exact ⟨next, hmid.trans hnext, h⟩
  | alt r s ihr ihs =>
    intro k cur b h
    simp only [run, Option.orElse_eq_or, Option.or_eq_some_iff] at h
    rcases h with h | ⟨-, h⟩
    · obtain ⟨next, hnext, h⟩ := ihr k cur b h
      exact ⟨next, hnext.mono fun hr => Bool.or_eq_true_iff.mpr (.inl hr), h⟩
    · obtain ⟨next, hnext, h⟩ := ihs k cur b h
      exact ⟨next, hnext.mono fun hs => Bool.or_eq_true_iff.mpr (.inr hs), h⟩
  | rep least most greedy body ih => exact repeated_moves ih greedy least most

/-- A match that consumes nothing is one the conditions at its place allow. -/
theorem nullAt_of_matchAt? {r : Regex} {text : List Char} {i : Nat}
    (h : r.matchAt? text i = some 0) : r.nullAt (·.holds (.ofText text i)) = true := by
  obtain ⟨next, hgoes, h⟩ := run_moves r _ _ _ h
  rcases hgoes with hlt | ⟨-, hnull⟩
  · simp only [Cursor.ofText, Option.some.injEq] at hlt h
    omega
  · exact hnull

/-- The step can only stay where it is, if it may, as where no character is left. -/
def StaysAt {β : Type} (may : Bool) (cur : Cursor) (step : Step β) : Prop :=
  ∀ k, step k cur = if may then k cur else none

section Rounds

variable {β : Type} {step : Step β} {may : Bool} {cur : Cursor}

theorem choose_same (greedy : Bool) (o : Option β) :
    choose greedy (fun _ => if may then o else none) (fun _ => o) = o := by
  cases greedy <;> cases may <;> cases o <;> rfl

theorem times_staysAt (hs : StaysAt may cur step) (n : Nat) :
    StaysAt (n == 0 || may) cur (times step n) := by
  intro k
  induction n with
  | zero => rfl
  | succ n ih =>
    rw [times, hs, ih]
    cases may <;> simp

theorem upTo_staysAt (hs : StaysAt may cur step) (greedy : Bool) (n : Nat) :
    StaysAt true cur (upTo step greedy n) := by
  intro k
  induction n with
  | zero => rfl
  | succ n ih => rw [upTo, hs, ih]; exact choose_same greedy (k cur)

theorem plus_staysAt (hs : StaysAt may cur step) (greedy : Bool) :
    StaysAt may cur (plus step greedy) := by
  intro k
  rw [plus, hs, if_pos rfl]

theorem star_staysAt (hs : StaysAt may cur step) (greedy : Bool) :
    StaysAt true cur (star step greedy) := by
  intro k
  rw [star, plus_staysAt hs greedy]
  exact choose_same greedy (k cur)

theorem repeated_staysAt (hs : StaysAt may cur step) (greedy : Bool) (least : Nat)
    (most : Option Nat) : StaysAt (least == 0 || may) cur (repeated step greedy least most) := by
  intro k
  rcases most with _ | most
  · rcases least with _ | n
    · exact star_staysAt hs greedy k
    · refine (times_staysAt hs n _).trans ?_
      rw [plus_staysAt hs greedy]
      cases may <;> simp
  · refine (times_staysAt hs least _).trans ?_
    rw [upTo_staysAt hs greedy, if_pos rfl]

end Rounds

theorem run_staysAt {β : Type} {cur : Cursor} (hend : cur.rest = []) (r : Regex) :
    StaysAt (r.nullAt (·.holds cur)) cur (run (β := β) r) := by
  induction r with
  | empty => intro k; rfl
  | set s => intro k; simp [run, hend, nullAt]
  | look l => intro k; rfl
  | seq r s ihr ihs =>
    intro k
    rw [run, ihr, ihs, nullAt]
    cases r.nullAt (·.holds cur) <;> rfl
  | alt r s ihr ihs =>
    intro k
    rw [run, ihr, ihs, nullAt]
    cases r.nullAt (·.holds cur) <;> cases k cur <;> simp
  | rep least most greedy body ih => exact repeated_staysAt ih greedy least most

/-- The empty text is matched exactly if the expression can be passed there. -/
theorem matchAt?_blank (r : Regex) :
    r.matchAt? [] 0 = if r.nullAt (·.holds .blank) then some 0 else none :=
  run_staysAt rfl r _

end Regex

namespace Pattern

open Regex (Look)

/-- As for expressions; a literal consumes nothing if it is empty. -/
def nullAt (holds : Look → Bool) : Pattern → Bool
  | char _ => false
  | literal text => text.toList.isEmpty
  | regex p => p.regex.nullAt holds

def looks : Pattern → List Look
  | char _ | literal _ => []
  | regex p => p.regex.looks

/-- The pattern needs no edge of a word to be passed without consuming anything. -/
def IgnoresEdges (p : Pattern) : Prop :=
  p.nullAt (fun _ => true) = true → p.nullAt (!·.asksEdge) = true

instance (p : Pattern) : Decidable p.IgnoresEdges := inferInstanceAs (Decidable (_ → _))

variable {p : Pattern} {text : List Char} {i : Nat}

theorem nullAt_mono {f g : Look → Bool} (hall : ∀ l ∈ p.looks, f l → g l)
    (h : p.nullAt f = true) : p.nullAt g = true := by
  cases p with
  | char c | literal lit => exact h
  | regex r => exact Regex.nullAt_mono hall h

theorem nullAt_of_matchAt? (h : p.matchAt? text i = some 0) :
    p.nullAt (·.holds (.ofText text i)) = true := by
  have hi : ¬ text.length < i := by
    have hwithin := matchAt?_within h
    omega
  cases p with
  | char c => simp [matchAt?, hi] at h
  | literal lit =>
    simp only [matchAt?, if_neg hi, Option.ite_none_right_eq_some, Option.some.injEq,
      List.length_eq_zero_iff] at h
    simp [nullAt, h.2]
  | regex r =>
    simp only [matchAt?, if_neg hi] at h
    exact Regex.nullAt_of_matchAt? h

/-- The empty text answers for the places where no word begins or ends. -/
theorem matchesEmpty_eq (p : Pattern) : p.matchesEmpty = p.nullAt (!·.asksEdge) := by
  cases p with
  | char c => rfl
  | literal lit =>
    rw [nullAt, matchesEmpty, matchAt?]
    cases lit.toList <;> rfl
  | regex r =>
    have hblank : (regex r).matchAt? [] 0 = _ := Regex.matchAt?_blank r.regex
    simp only [Look.holds_blank] at hblank
    rw [matchesEmpty, hblank, nullAt]
    cases r.regex.nullAt (!·.asksEdge) <;> rfl

/-- A match that consumes nothing, of a pattern that does not match the empty text, stands at the
edge of a word its pattern asks for. -/
theorem edge_of_empty_match (hp : p.matchesEmpty = false) (h : p.matchAt? text i = some 0) :
    ∃ l ∈ p.looks, l.asksEdge = true ∧ l.holds (.ofText text i) = true := by
  by_contra hno
  have hnull : p.nullAt (!·.asksEdge) = true := by
    refine nullAt_mono ?_ (nullAt_of_matchAt? h)
    intro l hl hholds
    rw [Bool.not_eq_true']
    by_contra hedge
    exact hno ⟨l, hl, by simpa using hedge, hholds⟩
  rw [← matchesEmpty_eq, hp] at hnull
  cases hnull

theorem IgnoresEdges.matchesEmpty (hp : p.IgnoresEdges) (h : p.matchAt? text i = some 0) :
    p.matchesEmpty = true := by
  rw [matchesEmpty_eq]
  exact hp (nullAt_mono (fun _ _ _ => rfl) (nullAt_of_matchAt? h))

theorem IgnoresEdges.consumes (hp : p.IgnoresEdges) : p.Consumes := by
  intro hempty text i n hn
  rcases Nat.eq_zero_or_pos n with rfl | hpos
  · rw [hp.matchesEmpty hn] at hempty
    cases hempty
  · exact hpos

example : (regex ⟨"\\b\\w", .seq (.look (.word .boundary)) (.set .word), false⟩).IgnoresEdges := by
  decide

theorem ignoresEdges_of_looks (h : ∀ l ∈ p.looks, l.asksEdge = false) : p.IgnoresEdges :=
  nullAt_mono fun l hl _ => by simp [h l hl]

theorem matchesEmpty_blank (h : p.matchesEmpty = true) : p.matchBytesAt? [] 0 = some 0 := by
  have hblank : p.matchAt? [] 0 = some 0 := eq_of_beq h
  exact matchBytesAt?_eq_zero_iff.mpr ⟨0, rfl, hblank⟩

def wordEdge : Pattern := .regex ⟨"\\b", .look (.word .boundary), false⟩

/-- The empty text answers for every place of every text, unless the pattern asks for the edge of
a word there. -/
theorem matchesEmpty_unless_edge (p : Pattern) :
    (∀ text pos, p.matchBytesAt? text pos = some 0 → p.matchesEmpty = true ∨
      ∃ i, Text.placeAt? text pos = some i ∧
        ∃ l ∈ p.looks, l.asksEdge = true ∧ l.holds (.ofText text i) = true) ∧
    (p.IgnoresEdges →
      (p.matchesEmpty = true ↔ ∃ text pos, p.matchBytesAt? text pos = some 0)) := by
  constructor
  · intro text pos h
    obtain ⟨i, hi, hmatch⟩ := matchBytesAt?_eq_zero_iff.mp h
    rcases Bool.eq_false_or_eq_true p.matchesEmpty with hp | hp
    · exact .inl hp
    · exact .inr ⟨i, hi, edge_of_empty_match hp hmatch⟩
  · intro hp
    refine ⟨fun h => ⟨[], 0, matchesEmpty_blank h⟩, ?_⟩
    rintro ⟨text, pos, h⟩
    obtain ⟨i, -, hmatch⟩ := matchBytesAt?_eq_zero_iff.mp h
    exact hp.matchesEmpty hmatch

theorem word_edge_overlooked :
    ofRegex "\\b" = .ok wordEdge ∧ wordEdge.matchesEmpty = false ∧
      wordEdge.matchBytesAt? ['a'] 0 = some 0 ∧
      (wordEdge.matchesEmpty = true ∨ ∃ i, Text.placeAt? ['a'] 0 = some i ∧
        ∃ l ∈ wordEdge.looks, l.asksEdge = true ∧ l.holds (.ofText ['a'] i) = true) := by
  have hmatch : wordEdge.matchBytesAt? ['a'] 0 = some 0 := by decide +kernel
  exact ⟨by rfl, by decide, hmatch, (matchesEmpty_unless_edge wordEdge).1 _ _ hmatch⟩

/-- An expression that is nothing but a condition is judged wrongly exactly if the condition asks
for the edge of a word. -/
theorem look_misjudged_iff (source : String) (spansLines : Bool) (l : Look) :
    (∃ text pos, (regex ⟨source, .look l, spansLines⟩).matchBytesAt? text pos = some 0) ∧
      (regex ⟨source, .look l, spansLines⟩).matchesEmpty = false ↔ l.asksEdge = true := by
  rw [matchesEmpty_eq, nullAt, Regex.nullAt, Bool.not_eq_false']
  refine and_iff_right_of_imp fun hedge => ?_
  have hplace : ∃ i ≤ 1, l.holds (.ofText ['a'] i) = true := by
    cases l with
    | word test | asciiWord test =>
      cases test with
      | boundary | starts => exact ⟨0, by decide, by decide +kernel⟩
      | ends => exact ⟨1, by decide, by decide +kernel⟩
      | inside | startsHalf | endsHalf => cases hedge
    | _ => cases hedge
  obtain ⟨i, hi, hholds⟩ := hplace
  refine ⟨['a'], Text.bytesBefore ['a'] i, matchBytesAt?_eq_zero_iff.mpr ⟨i, ?_, ?_⟩⟩
  · exact Text.placeAt?_bytesBefore _ _ hi
  · have hrun : (Regex.look l).matchAt? ['a'] i = some 0 := by
      rw [Regex.matchAt?, Regex.run, if_pos hholds]
      simp [Regex.Cursor.ofText]
    simpa [matchAt?, hi] using hrun

end Pattern

/-- Rules whose patterns need no edge of a word to be passed without consuming anything consume
whatever they match. -/
theorem Ruleset.consuming_of_ignoresEdges {rs : Ruleset}
    (h : ∀ r ∈ rs.rules, ∀ p ∈ r.scanned, p.IgnoresEdges) : rs.Consuming :=
  fun r hr p hp => (h r hr p hp).consumes

end TableLexer
