import TableLexer.Pattern
import TableLexer.Proofs.Regex.DotAll
import TableLexer.Proofs.Regex.Readings

/-!
# Sources in the group of a multi-line pattern

A multi-line pattern puts its source as text into a group with the flag `dotAll`, and only the
result is read. The group keeps the source together if its own parenthesis is the one that closes it. A
source that is accepted by itself can lose it to a comment on its last line, or be nested too deeply
with the group around it; and a source that is malformed by itself is well formed in the group if it
closes it and what stands behind leads on to the parenthesis. The size of a source by itself says
nothing about its size in the group, so the limit on sizes is asked for each of the two.
-/
namespace TableLexer

namespace Regex

variable {p : GroupProgress} {cs u : List Char} {a b : Ast} {names names' : List (List Char)}

def wrapped (cs : List Char) : List Char := '(' :: '?' :: 's' :: ':' :: (cs ++ [')'])

def GroupProgress.wrapped (a : Ast) (names : List (List Char)) : GroupProgress :=
  (GroupProgress.start false []).left [(.dotAll, true)] a names

theorem turn?_wrapper (cs : List Char) :
    turn? (.start false []) ('(' :: '?' :: 's' :: ':' :: cs) =
      some (.enter [(.dotAll, true)] (.start false []), cs) := rfl

theorem parses_wrapped_iff :
    Parses (.start false []) (Regex.wrapped cs) b names' u ↔
      ∃ a names rest, Parses (.start false []) (cs ++ [')']) a names (')' :: rest) ∧
        Parses (.wrapped a names) rest b names' u := by
  have hturn := turn?_wrapper (cs ++ [')'])
  constructor
  · intro h
    cases h with
    | stop h => cases hturn.symm.trans h
    | go h _ => cases hturn.symm.trans h
    | enter h group rest =>
      cases hturn.symm.trans h
      exact ⟨_, _, _, group, rest⟩
  · rintro ⟨a, names, rest, hgroup, hrest⟩
    exact .enter hturn hgroup hrest

theorem parses_nil_iff : Parses p [] b names' u ↔ b = p.close ∧ names' = p.names ∧ u = [] := by
  have hturn := turn?_nil p
  constructor
  · intro h
    cases h with
    | stop h =>
      cases hturn.symm.trans h
      exact ⟨rfl, rfl, rfl⟩
    | go h _ => cases hturn.symm.trans h
    | enter h _ _ => cases hturn.symm.trans h
  · rintro ⟨rfl, rfl, rfl⟩
    exact .stop hturn

/-- A reading that stops at a parenthesis stops at the one behind the source, or at one that the
source has too many. -/
theorem Parses.paren_cases (h : Parses p (cs ++ [')']) a names (')' :: u)) :
    u = [] ∧ Parses p cs a names [] ∨
      ∃ rest, u = rest ++ [')'] ∧ Parses p cs a names (')' :: rest) := by
  have hseam : Seam True cs (cs ++ [')']) := .behind fun _ => trivial
  obtain ⟨t, hread, hend⟩ := h.without hseam (List.cons_ne_nil _ _)
  rcases hread.stops with rfl | ⟨rest, rfl⟩
  · rcases hend.nil_cases with heq | heq
    · exact .inl ⟨(List.cons.inj heq).2, hread⟩
    · cases heq
  · generalize ht : ')' :: u = t at hend
    cases hend with
    | behind _ => exact .inr ⟨rest, (List.cons.inj ht).2, hread⟩

theorem Parses.stray (h : Parses p cs a names (')' :: u)) :
    Parses p (cs ++ [')']) a names (')' :: (u ++ [')'])) := by
  have hseam : Seam True cs (cs ++ [')']) := .behind fun _ => trivial
  obtain ⟨t, hread, hend⟩ := h.behind hseam
  cases hend with
  | behind _ => exact hread

/-- Behind a source that is read to its end, the parenthesis is left or a comment has swallowed
it. -/
theorem Parses.paren_or_swallowed (h : Parses p cs a names []) :
    Parses p (cs ++ [')']) a names [')'] ∨
      Parses p (cs ++ [')']) a names [] ∧ HashOnLastLine cs := by
  obtain ⟨t, hread, hend⟩ := h.behind (Seam.behind id)
  cases hend with
  | behind _ => exact .inl hread
  | swallowed hhash => exact .inr ⟨hread, hhash⟩

end Regex

namespace Pattern

open Regex

variable {lib : Library} {source : String} {a b : Ast}

theorem toList_multilineSource (source : String) :
    (multilineSource source).toList = Regex.wrapped source.toList := by
  simp [multilineSource, Regex.wrapped]

def WellFormed (lib : Library) (source : String) : Prop :=
  ∃ a, Ast.parse? source.toList = some a ∧ a.Means lib {}

/-- The source with a closing parenthesis behind it is read to its end as well: a comment has
swallowed the parenthesis. -/
def EndsInComment (source : String) : Prop := (Ast.parse? (source ++ ")").toList).isSome

def NestedToLimit (source : String) : Prop :=
  ∃ a, Ast.parse? source.toList = some a ∧ a.depth .apart = Ast.maxDepth

/-- The source closes the wrapper's group itself, and what stands behind reaches the wrapper's
parenthesis and ends with it: the whole is an expression, but the source is not. -/
def ClosesWrapper (lib : Library) (source : String) : Prop :=
  ∃ a names rest b names', Parses (.start false []) source.toList a names (')' :: rest) ∧
    Parses (.wrapped a names) (rest ++ [')']) b names' [] ∧
    b.depth .apart ≤ Ast.maxDepth ∧ b.Means lib {}

/-- Only its size keeps the source from being accepted, and in the group it is not too large. -/
structure FitsOnlyWrapped (lib : Library) (source : String) : Prop where
  wellFormed : WellFormed lib source
  uncommented : ¬EndsInComment source
  room : ¬NestedToLimit source
  tooLarge : lib.fits source = false
  fits : lib.fits (multilineSource source)

/-- The source is read to its end, to the tree `a`, the wrapper's parenthesis closes the wrapper's
group, and there is room for that group around it. -/
structure Sealed (source : String) (a : Ast) : Prop where
  read : ∃ names, Parses (.start false []) (source.toList ++ [')']) a names [')']
  room : a.depth .apart < Ast.maxDepth

theorem compiled_isOk_iff {spans : Bool} :
    (compiled source spans lib).isOk ↔ WellFormed lib source ∧ lib.fits source := by
  unfold compiled Regex.compile Regex.parse? WellFormed Ast.Means
  cases Ast.parse? source.toList with
  | none => simp [Except.isOk, Except.toBool]
  | some a =>
    cases hmeaning : a.meaning? lib {} with
    | none => simp [hmeaning, Except.isOk, Except.toBool]
    | some x =>
      cases lib.fits source with
      | false => simp [hmeaning, Except.isOk, Except.toBool]
      | true => simp [hmeaning, Except.isOk, Except.toBool]

theorem ofRegex_isOk_iff : (ofRegex source lib).isOk ↔ WellFormed lib source ∧ lib.fits source :=
  compiled_isOk_iff

namespace Sealed

theorem parse?_eq (h : Sealed source a) : Ast.parse? source.toList = some a := by
  obtain ⟨names, hread⟩ := h.read
  rw [Ast.parse?_eq_some_iff]
  rcases hread.paren_cases with ⟨-, hread⟩ | ⟨rest, heq, -⟩
  · exact ⟨⟨names, hread⟩, Nat.le_of_lt h.room⟩
  · simp at heq

/-- The whole source stands in the wrapper's group. -/
theorem parse?_wrapped (h : Sealed source a) :
    Ast.parse? (Regex.wrapped source.toList) = some (.group [(.dotAll, true)] a) := by
  obtain ⟨names, hparen⟩ := h.read
  have hgroup : Parses (.wrapped a names) [] (.group [(.dotAll, true)] a) names [] :=
    parses_nil_iff.mpr ⟨rfl, rfl, rfl⟩
  have hdepth : 1 + a.depth .apart ≤ Ast.maxDepth := by
    have hroom := h.room
    omega
  exact Ast.parse?_eq_some_iff.mpr
    ⟨⟨names, parses_wrapped_iff.mpr ⟨a, names, [], hparen, hgroup⟩⟩, hdepth⟩

end Sealed

theorem endsInComment_iff (h : Ast.parse? source.toList = some a) :
    EndsInComment source ↔
      ∃ names, Parses (.start false []) (source.toList ++ [')']) a names [] := by
  have htext : (source ++ ")").toList = source.toList ++ [')'] := by simp
  obtain ⟨⟨names, hread⟩, hdepth⟩ := Ast.parse?_eq_some_iff.mp h
  rw [EndsInComment, htext, Option.isSome_iff_exists]
  constructor
  · rintro ⟨b, hb⟩
    obtain ⟨⟨names', hread'⟩, -⟩ := Ast.parse?_eq_some_iff.mp hb
    rcases hread.paren_or_swallowed with hparen | ⟨hswallowed, -⟩
    · cases (hparen.unique hread').2.2
    · exact ⟨names, hswallowed⟩
  · rintro ⟨names, hread⟩
    exact ⟨a, Ast.parse?_eq_some_iff.mpr ⟨⟨names, hread⟩, hdepth⟩⟩

theorem sealed_iff (h : Ast.parse? source.toList = some a) :
    Sealed source a ↔ ¬EndsInComment source ∧ ¬NestedToLimit source := by
  rw [endsInComment_iff h]
  obtain ⟨⟨names, hread⟩, hdepth⟩ := Ast.parse?_eq_some_iff.mp h
  constructor
  · rintro ⟨⟨names, hparen⟩, hroom⟩
    constructor
    · rintro ⟨names', hswallowed⟩
      cases (hparen.unique hswallowed).2.2
    · rintro ⟨b, hb, hlimit⟩
      cases h.symm.trans hb
      exact absurd hlimit (Nat.ne_of_lt hroom)
  · rintro ⟨hopen, hlimit⟩
    have hroom : a.depth .apart ≠ Ast.maxDepth := fun heq => hlimit ⟨a, h, heq⟩
    rcases hread.paren_or_swallowed with hparen | ⟨hswallowed, -⟩
    · exact ⟨⟨names, hparen⟩, Nat.lt_of_le_of_ne hdepth hroom⟩
    · exact absurd ⟨names, hswallowed⟩ hopen

theorem wellFormed_wrapped_iff :
    WellFormed lib (multilineSource source) ↔
      (∃ a, Sealed source a ∧ a.Means lib {}) ∨ ClosesWrapper lib source := by
  have hdotted : ({} : Flags).Dotted (({} : Flags).change [(.dotAll, true)]) := .inr rfl
  rw [WellFormed, toList_multilineSource]
  constructor
  · rintro ⟨b, hparse, hmeans⟩
    obtain ⟨⟨names', hread⟩, hdepth⟩ := Ast.parse?_eq_some_iff.mp hparse
    obtain ⟨a, names, rest, hgroup, hrest⟩ := parses_wrapped_iff.mp hread
    rcases hgroup.paren_cases with ⟨rfl, -⟩ | ⟨rest, rfl, hstray⟩
    · obtain ⟨rfl, -, -⟩ := parses_nil_iff.mp hrest
      have hroom : 1 + a.depth .apart ≤ Ast.maxDepth := hdepth
      have hmeans := (Ast.means_dotted hdotted).mp (Ast.means_group.mp hmeans)
      exact .inl ⟨a, ⟨⟨names, hgroup⟩, by omega⟩, hmeans⟩
    · exact .inr ⟨a, names, rest, b, names', hstray, hrest, hdepth, hmeans⟩
  · rintro (⟨a, hsealed, hmeans⟩ | ⟨a, names, rest, b, names', hstray, hrest, hdepth, hmeans⟩)
    · have hmeans := Ast.means_group.mpr ((Ast.means_dotted hdotted).mpr hmeans)
      exact ⟨_, hsealed.parse?_wrapped, hmeans⟩
    · have hread := parses_wrapped_iff.mpr ⟨a, names, _, hstray.stray, hrest⟩
      exact ⟨b, Ast.parse?_eq_some_iff.mpr ⟨⟨names', hread⟩, hdepth⟩, hmeans⟩

theorem multiline_isOk_iff :
    (multiline source lib).isOk ↔
      ((∃ a, Sealed source a ∧ a.Means lib {}) ∨ ClosesWrapper lib source) ∧
        lib.fits (multilineSource source) := by
  rw [← wellFormed_wrapped_iff]
  exact compiled_isOk_iff

/-- A source that is well formed by itself does not close the wrapper's group. -/
theorem WellFormed.not_closesWrapper (h : WellFormed lib source) : ¬ClosesWrapper lib source := by
  obtain ⟨a, hparse, -⟩ := h
  rintro ⟨_, _, _, _, _, hread, -⟩
  obtain ⟨⟨names, hall⟩, -⟩ := Ast.parse?_eq_some_iff.mp hparse
  cases (hall.unique hread).2.2

/-- A well-formed source stays together in the group if the wrapper's parenthesis is seen and there
is room for the wrapper. -/
theorem WellFormed.multiline_isOk_iff (h : WellFormed lib source) :
    (multiline source lib).isOk ↔
      ¬EndsInComment source ∧ ¬NestedToLimit source ∧ lib.fits (multilineSource source) := by
  obtain ⟨a, hparse, hmeans⟩ := h
  rw [Pattern.multiline_isOk_iff, ← and_assoc, ← sealed_iff hparse]
  refine and_congr_left fun _ => ⟨?_, fun hsealed => .inl ⟨a, hsealed, hmeans⟩⟩
  rintro (⟨b, hsealed, -⟩ | hcloses)
  · cases hparse.symm.trans hsealed.parse?_eq
    exact hsealed
  · exact absurd hcloses (WellFormed.not_closesWrapper ⟨a, hparse, hmeans⟩)

theorem multiline_isOk_of_refused (h : ¬(ofRegex source lib).isOk) :
    (multiline source lib).isOk ↔
      ClosesWrapper lib source ∧ lib.fits (multilineSource source) ∨
        FitsOnlyWrapped lib source := by
  by_cases hformed : WellFormed lib source
  · have hlarge : lib.fits source = false :=
      Bool.eq_false_iff.mpr fun hfits => h (ofRegex_isOk_iff.mpr ⟨hformed, hfits⟩)
    rw [hformed.multiline_isOk_iff]
    constructor
    · rintro ⟨huncommented, hroom, hfits⟩
      exact .inr ⟨hformed, huncommented, hroom, hlarge, hfits⟩
    · rintro (⟨hcloses, -⟩ | hfits)
      · exact absurd hcloses hformed.not_closesWrapper
      · exact ⟨hfits.uncommented, hfits.room, hfits.fits⟩
  · rw [multiline_isOk_iff]
    constructor
    · rintro ⟨⟨a, hsealed, hmeans⟩ | hcloses, hfits⟩
      · exact absurd ⟨a, hsealed.parse?_eq, hmeans⟩ hformed
      · exact .inl ⟨hcloses, hfits⟩
    · rintro (⟨hcloses, hfits⟩ | hfits)
      · exact ⟨.inr hcloses, hfits⟩
      · exact absurd hfits.wellFormed hformed

/-- Only a comment can swallow the parenthesis. -/
theorem EndsInComment.hash (h : EndsInComment source) (hformed : WellFormed lib source) :
    HashOnLastLine source.toList := by
  obtain ⟨a, hparse, -⟩ := hformed
  obtain ⟨names, hswallowed⟩ := (endsInComment_iff hparse).mp h
  obtain ⟨⟨names', hread⟩, -⟩ := Ast.parse?_eq_some_iff.mp hparse
  rcases hread.paren_or_swallowed with hparen | ⟨-, hhash⟩
  · cases (hparen.unique hswallowed).2.2
  · exact hhash

theorem ClosesWrapper.paren_mem (h : ClosesWrapper lib source) : ')' ∈ source.toList := by
  obtain ⟨a, names, rest, -, -, hread, -⟩ := h
  exact hread.suffix.mem List.mem_cons_self

/-- Without closing parentheses and without a comment at the end, only the limits on depth and size
tell the two apart. -/
theorem multiline_isOk_iff_ofRegex (hparen : ')' ∉ source.toList)
    (hhash : ¬HashOnLastLine source.toList) (hdepth : ¬NestedToLimit source)
    (hsize : lib.fits (multilineSource source) = lib.fits source) :
    (multiline source lib).isOk ↔ (ofRegex source lib).isOk := by
  rw [ofRegex_isOk_iff]
  by_cases hformed : WellFormed lib source
  · rw [hformed.multiline_isOk_iff, hsize]
    exact ⟨fun h => ⟨hformed, h.2.2⟩, fun h => ⟨fun hc => hhash (hc.hash hformed), hdepth, h.2⟩⟩
  · have hrefused : ¬(ofRegex source lib).isOk := fun hok => hformed (ofRegex_isOk_iff.mp hok).1
    rw [multiline_isOk_of_refused hrefused]
    refine iff_of_false ?_ fun h => hformed h.1
    rintro (⟨hcloses, -⟩ | hfits)
    · exact hparen hcloses.paren_mem
    · exact hformed hfits.wellFormed

theorem compiled_error {spans : Bool} {e : LexError} (h : compiled source spans lib = .error e) :
    ∃ fault, e = .plain (.badRegex source fault) := by
  unfold compiled at h
  split at h
  · cases h
  · next fault _ =>
    cases h
    exact ⟨fault, rfl⟩

/-- What the wrapper does to the validity of a source, whatever the names of properties and the
limit on sizes. One that is accepted by itself is refused in the wrapper if a comment swallows the
parenthesis, the limit on depth is reached, or the whole is too large. One that is refused by itself
is accepted in the wrapper if it closes the wrapper, or if it is too large only by itself. Every
refusal is an error of the rule table. -/
theorem wrapping_changes_validity_iff (lib : Library) (source : String) :
    ((ofRegex source lib).isOk →
      ((multiline source lib).isOk ↔
        ¬EndsInComment source ∧ ¬NestedToLimit source ∧ lib.fits (multilineSource source))) ∧
    (¬(ofRegex source lib).isOk →
      ((multiline source lib).isOk ↔
        ClosesWrapper lib source ∧ lib.fits (multilineSource source) ∨
          FitsOnlyWrapped lib source)) ∧
    ∀ e, ofRegex source lib = .error e ∨ multiline source lib = .error e → e.kind = .rule := by
  refine ⟨fun hok => (ofRegex_isOk_iff.mp hok).1.multiline_isOk_iff, multiline_isOk_of_refused, ?_⟩
  rintro e (h | h)
  · obtain ⟨fault, rfl⟩ := compiled_error h
    rfl
  · obtain ⟨fault, rfl⟩ := compiled_error h
    rfl

/-- The parenthesis of the first source closes the wrapper's group, and the one left open behind it
is closed by the wrapper; the comment of the second hides the wrapper's parenthesis. -/
theorem stray_parenthesis_accepted :
    ((∃ e, ofRegex "a)b(" .bundled = .error e ∧ e.kind = .rule) ∧
      (multiline "a)b(" .bundled).isOk) ∧
      (ofRegex "(?x)a#b" .bundled).isOk ∧ ¬(multiline "(?x)a#b" .bundled).isOk := by
  have hcloses : ClosesWrapper .bundled "a)b(" :=
    ⟨_, _, ['b', '('], _, _, .of_alternatives? (n := 5) rfl, .of_alternatives? (n := 5) rfl,
      by decide, rfl⟩
  have hcomment : EndsInComment "(?x)a#b" := by
    unfold EndsInComment
    decide
  obtain ⟨-, hrefused, herror⟩ := wrapping_changes_validity_iff .bundled "a)b("
  obtain ⟨hvalid, -⟩ := wrapping_changes_validity_iff .bundled "(?x)a#b"
  refine ⟨⟨⟨_, rfl, herror _ (.inl rfl)⟩, (hrefused (by decide)).mpr (.inl ⟨hcloses, by decide⟩)⟩,
    by decide, fun haccepted => ?_⟩
  exact ((hvalid (by decide)).mp haccepted).1 hcomment

end Pattern

end TableLexer
