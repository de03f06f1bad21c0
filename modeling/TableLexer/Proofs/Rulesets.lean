import TableLexer.Lexer.Basic

/-!
# Building rule sets

What is known of a rule set and of a lexer that were accepted.
-/
namespace TableLexer

theorem Checked.bind_eq_ok {ε α β : Type} {x : Except ε α} {f : α → Except ε β} {b : β} :
    (x >>= f) = .ok b ↔ ∃ a, x = .ok a ∧ f a = .ok b := by
  cases x with
  | error e =>
    constructor
    · intro h
      cases h
    · rintro ⟨a, h, -⟩
      cases h
  | ok a =>
    constructor
    · intro h
      exact ⟨a, rfl, h⟩
    · rintro ⟨a, h, hf⟩
      cases h
      exact hf

theorem Checked.of_toOption {ε α : Type} {x : Except ε α} {a : α} (h : x.toOption = some a) :
    x = .ok a := by
  cases x with
  | error e => cases h
  | ok b =>
    cases h
    rfl

namespace Ruleset

variable {s s' : Ruleset} {r : Rule}

/-- A rule that was added passed its checks and is new. -/
theorem addRule_eq_ok (h : s.addRule r = .ok s') :
    r.checkShape = .ok () ∧ s.rule? r.name = none ∧ s.checkRule r = .ok () ∧
      s' = { s with rules := insertBy (fun a b => decide (a.name < b.name)) r s.rules } := by
  unfold addRule at h
  dsimp only at h
  split at h
  · cases h
  · obtain ⟨_, hshape, h⟩ := Checked.bind_eq_ok.mp h
    split at h
    · cases h
    · next hnew =>
      obtain ⟨_, hrule, h⟩ := Checked.bind_eq_ok.mp h
      cases h
      exact ⟨hshape, by simpa using hnew, hrule, rfl⟩

theorem addRule_types (h : s.addRule r = .ok s') : s.types ≠ none := by
  intro hnone
  rw [addRule, hnone] at h
  cases h

theorem setTypes_eq_ok {types : List (TokenType × String)} (h : s.setTypes types = .ok s') :
    s.types = none ∧ s'.rules = s.rules := by
  unfold setTypes at h
  dsimp only at h
  split at h
  · cases h
  · next hnone =>
    obtain ⟨sorted, -, h⟩ := Checked.bind_eq_ok.mp h
    cases h
    exact ⟨by simpa using hnone, rfl⟩

theorem mem_insertBy {α : Type} {before : α → α → Bool} {x y : α} {xs : List α} :
    y ∈ insertBy before x xs ↔ y = x ∨ y ∈ xs := by
  induction xs with
  | nil => simp [insertBy]
  | cons z zs ih =>
    rw [insertBy]
    split
    · simp
    · rw [List.mem_cons, ih, List.mem_cons, or_left_comm]

theorem find?_insertBy {rules : List Rule} (before : Rule → Rule → Bool) {name : String}
    (hnew : r.name = name → rules.find? (·.name = name) = none) :
    (insertBy before r rules).find? (·.name = name) =
      if r.name = name then some r else rules.find? (·.name = name) := by
  induction rules with
  | nil => by_cases h : r.name = name <;> simp [insertBy, h]
  | cons x xs ih =>
    have hrest : r.name = name → xs.find? (·.name = name) = none ∧ x.name ≠ name := by
      intro h
      have hn := hnew h
      rw [List.find?_cons] at hn
      split at hn
      · cases hn
      · next hx => exact ⟨hn, by simpa using hx⟩
    rw [insertBy]
    split
    · rw [List.find?_cons]
      by_cases h : r.name = name <;> simp [h]
    · rw [List.find?_cons, ih fun h => (hrest h).1, List.find?_cons]
      by_cases h : r.name = name
      · simp [h, (hrest h).2]
      · by_cases hx : x.name = name <;> simp [h, hx]

/-- Adding a rule makes it known under its name and changes nothing else. -/
theorem rule?_addRule (h : s.addRule r = .ok s') (name : String) :
    s'.rule? name = if r.name = name then some r else s.rule? name := by
  obtain ⟨-, hnew, -, rfl⟩ := addRule_eq_ok h
  apply find?_insertBy
  rintro rfl
  exact hnew

/-- A rule passes if all types that its actions emit or compare with are registered. -/
theorem checkRule_eq_ok_iff :
    s.checkRule r = .ok () ↔
      ∀ a ∈ r.allActions, ∀ type ∈ emitted a, s.hasType type = true := by
  unfold checkRule
  constructor
  · intro h a ha type ht
    split at h
    · cases h
    · next hfind =>
      have hnone := List.find?_eq_none.mp hfind type (List.mem_flatMap.mpr ⟨a, ha, ht⟩)
      simpa using hnone
  · intro h
    split
    · next type hfind =>
      have hsome := List.find?_some hfind
      obtain ⟨a, ha, ht⟩ := List.mem_flatMap.mp (List.mem_of_find?_eq_some hfind)
      simp [h a ha type ht] at hsome
    · rfl

/-- The whole set passes if all subrules exist and no rule can re-enter itself. -/
theorem validate_eq_ok_iff :
    s.validate = .ok () ↔
      (∀ r ∈ s.rules, ∀ name ∈ subruleNames r, ∃ r', s.rule? name = some r') ∧
        s.checkCycles = .ok () := by
  have hdangling : s.dangling? = none ↔
      ∀ r ∈ s.rules, ∀ name ∈ subruleNames r, ∃ r', s.rule? name = some r' := by
    simp [dangling?, Option.ne_none_iff_exists']
  unfold validate
  rw [← hdangling]
  cases s.dangling? with
  | none => simp
  | some dangling => simp

end Ruleset

/-- A lexer is accepted if its rule set is valid and has the rules that the options name; it
waits for input then. -/
theorem Lexer.new_eq_ok_iff {rs : Ruleset} {options : Options} {l : Lexer} :
    Lexer.new rs options = .ok l ↔
      rs.validate = .ok () ∧ (rs.rule? options.mainRule).isSome ∧
      Lexer.orphanMode? rs options = none ∧
      Queue.secondTransform? [] options.transforms = none ∧
      l = { engine := .new options.engineConfig, queue := ⟨[], [], options.transforms⟩,
            ruleset := rs, options } := by
  unfold Lexer.new
  dsimp only
  constructor
  · intro h
    obtain ⟨_, hvalid, h⟩ := Checked.bind_eq_ok.mp h
    split at h
    · cases h
    · next hmain =>
      cases horphan : Lexer.orphanMode? rs options with
      | some mode =>
        rw [horphan] at h
        cases h
      | none =>
        rw [horphan] at h
        obtain ⟨queue, hqueue, h⟩ := Checked.bind_eq_ok.mp h
        cases h
        unfold Queue.withTransforms at hqueue
        split at hqueue
        · cases hqueue
        · next hsecond =>
          cases hqueue
          refine ⟨hvalid, ?_, rfl, hsecond, rfl⟩
          rw [Option.isSome_iff_ne_none]
          simpa using hmain
  · rintro ⟨hvalid, hmain, horphan, hsecond, rfl⟩
    have hmain : (rs.rule? options.mainRule).isNone = false := by
      rw [Option.isNone_eq_false_iff]
      exact hmain
    simp only [hvalid, horphan, hmain, Queue.withTransforms, hsecond]
    rfl

end TableLexer
