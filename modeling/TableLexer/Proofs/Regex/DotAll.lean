import TableLexer.Regex.Meaning

/-!
# The meaning of a tree with the dot across line breaks

Turning the flag `dotAll` on around a tree neither gives it a meaning nor takes its meaning away:
only the dots of the tree read the flag, and they have a meaning either way.
-/
namespace TableLexer.Regex

variable {lib : Library} {f g : Flags} {r s : Regex}

namespace Flags

/-- The same flags, but on the right the dot may match line breaks where it does not on the left. -/
def Dotted (f g : Flags) : Prop := g = f ∨ g = { f with dotAll := true }

theorem Dotted.set (h : Dotted f g) (flag : Flag) (b : Bool) :
    Dotted (f.set flag b) (g.set flag b) := by
  rcases h with rfl | rfl
  · exact .inl rfl
  · cases flag with
    | dotAll => exact .inl rfl
    | _ => exact .inr rfl

theorem Dotted.change (h : Dotted f g) (change : FlagChange) :
    Dotted (f.change change) (g.change change) := by
  unfold Flags.change
  induction change generalizing f g with
  | nil => exact h
  | cons x change ih => exact ih (h.set x.1 x.2)

theorem Dotted.literal?_eq (h : Dotted f g) (c : Char) (hexPair : Bool) :
    g.literal? c hexPair = f.literal? c hexPair := by
  rcases h with rfl | rfl <;> rfl

theorem Dotted.negated?_eq (h : Dotted f g) (negated : Bool) (s : CharSet) :
    g.negated? negated s = f.negated? negated s := by
  rcases h with rfl | rfl <;> rfl

theorem Dotted.shorthand_eq (h : Dotted f g) (c : Shorthand) : g.shorthand c = f.shorthand c := by
  rcases h with rfl | rfl
  · rfl
  · cases c <;> rfl

theorem Dotted.folded_eq (h : Dotted f g) (s : CharSet) : g.folded s = f.folded s := by
  rcases h with rfl | rfl <;> rfl

theorem Dotted.inClass?_eq (h : Dotted f g) (c : Char) : g.inClass? c = f.inClass? c := by
  rcases h with rfl | rfl <;> rfl

theorem Dotted.property?_eq (h : Dotted f g) (name : List Char) (negated : Bool) :
    g.property? lib name negated = f.property? lib name negated := by
  rcases h with rfl | rfl <;> rfl

end Flags

/-- What stands between brackets does not read the flag. -/
theorem ClassSet.meaning?_dotted (h : f.Dotted g) (c : ClassSet) :
    c.meaning? lib g = c.meaning? lib f := by
  induction c with
  | empty => rfl
  | char c => simp only [meaning?, h.inClass?_eq]
  | range a b => simp only [meaning?, h.inClass?_eq]
  | shorthand c negated => simp only [meaning?, h.negated?_eq, h.shorthand_eq]
  | ascii c negated => simp only [meaning?, h.negated?_eq, h.folded_eq]
  | property name negated => simp only [meaning?, h.property?_eq]
  | bracket negated members ih => simp only [meaning?, ih, h.negated?_eq, h.folded_eq]
  | union a b iha ihb => simp only [meaning?, iha, ihb]
  | op o a b iha ihb => simp only [meaning?, iha, ihb, h.folded_eq]

inductive Alike : Option (Regex × Flags) → Option (Regex × Flags) → Prop
  | refused : Alike none none
  | means {f g : Flags} {r s : Regex} (hflags : f.Dotted g) : Alike (some (r, f)) (some (s, g))

namespace Alike

variable {m m' : Option (Regex × Flags)}

theorem isSome_eq (h : Alike m m') : m'.isSome = m.isSome := by
  cases h with
  | refused => rfl
  | means _ => rfl

theorem of_set {o o' : Option CharSet} (h : f.Dotted g) (ho : o'.isSome = o.isSome) :
    Alike (o.map fun s => (.set s, f)) (o'.map fun s => (.set s, g)) := by
  cases o <;> cases o' <;> cases ho
  · exact .refused
  · exact .means h

/-- A part under its own flags, with the flags outside it restored behind it. -/
theorem within (wrap wrap' : Regex → Regex) (h : f.Dotted g) (hm : Alike m m') :
    Alike (m.map fun x => (wrap x.1, f)) (m'.map fun x => (wrap' x.1, g)) := by
  cases hm with
  | refused => exact .refused
  | means _ => exact .means h

/-- Two parts in a row, the second under the flags that the first leaves. -/
theorem join {next : Flags → Option (Regex × Flags)} {pair : Regex → Regex → Regex}
    (h : Alike m m') (hnext : ∀ {f g : Flags}, f.Dotted g → Alike (next f) (next g)) :
    Alike (m.bind fun (r, f) => (next f).map fun (s, f) => (pair r s, f))
      (m'.bind fun (r, f) => (next f).map fun (s, f) => (pair r s, f)) := by
  cases h with
  | refused => exact .refused
  | @means f g r r' hflags =>
    have hlater := hnext hflags
    simp only [Option.bind_some]
    generalize next f = o at hlater
    generalize next g = o' at hlater
    cases hlater with
    | refused => exact .refused
    | means hflags => exact .means hflags

end Alike

theorem Flags.Dotted.dot?_isSome (h : f.Dotted g) : g.dot?.isSome = f.dot?.isSome := by
  rcases h with rfl | rfl
  · rfl
  · obtain ⟨ignoreCase, multiLine, dotAll, swapGreed, unicode, crlf⟩ := f
    cases unicode <;> cases dotAll <;> cases crlf <;> rfl

namespace Ast

theorem meaning?_seq (a b : Ast) (f : Flags) :
    (Ast.seq a b).meaning? lib f =
      (a.meaning? lib f).bind fun (r, f) => (b.meaning? lib f).map fun (s, f) => (.seq r s, f) := by
  rw [meaning?]
  cases a.meaning? lib f <;> rfl

theorem meaning?_alt (a b : Ast) (f : Flags) :
    (Ast.alt a b).meaning? lib f =
      (a.meaning? lib f).bind fun (r, f) => (b.meaning? lib f).map fun (s, f) => (.alt r s, f) := by
  rw [meaning?]
  cases a.meaning? lib f <;> rfl

theorem meaning?_alike (h : f.Dotted g) (a : Ast) :
    Alike (a.meaning? lib f) (a.meaning? lib g) := by
  induction a generalizing f g with
  | empty => exact .means h
  | flags change => exact .means (h.change change)
  | literal c hexPair =>
    simp only [meaning?, h.literal?_eq]
    exact .of_set h rfl
  | dot => exact .of_set h h.dot?_isSome
  | assertion a => exact .means h
  | shorthand c negated =>
    simp only [meaning?, h.negated?_eq, h.shorthand_eq]
    exact .of_set h rfl
  | property name negated =>
    simp only [meaning?, h.property?_eq]
    exact .of_set h rfl
  | bracket negated members =>
    simp only [meaning?, ClassSet.meaning?_dotted h, h.negated?_eq, h.folded_eq]
    exact .of_set h rfl
  | rep least most greedy body ih =>
    simp only [meaning?]
    exact .within _ _ h (ih h)
  | group change body ih =>
    simp only [meaning?]
    exact .within id id h (ih (h.change change))
  | seq a b iha ihb =>
    rw [meaning?_seq, meaning?_seq]
    exact (iha h).join ihb
  | alt a b iha ihb =>
    rw [meaning?_alt, meaning?_alt]
    exact (iha h).join ihb

/-- The tree has a meaning: its properties have names that are known, and without the flag
`unicode` nothing could split a character. -/
def Means (lib : Library) (a : Ast) (f : Flags) : Prop := (a.meaning? lib f).isSome

theorem means_group {a : Ast} {change : FlagChange} :
    (group change a).Means lib f ↔ a.Means lib (f.change change) := by
  simp only [Means, meaning?, Option.isSome_map]

theorem means_dotted (h : f.Dotted g) {a : Ast} : a.Means lib g ↔ a.Means lib f := by
  rw [Means, Means, (meaning?_alike h a).isSome_eq]

end Ast

end TableLexer.Regex
