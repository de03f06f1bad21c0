import TableLexer.Proofs.Regex.Classes

/-!
# Sources with a closing parenthesis behind them

The reading of a source as a derivation of single turns, without the bound of the reader. Main
statements: a source that is read without a parenthesis behind it is read with it, to the same
tree, up to the parenthesis or, if a comment on the last line swallows it, to the end; and a reading
that stops at a parenthesis does not depend on the last one.
-/
namespace TableLexer.Regex

variable {H : Prop} {p q : GroupProgress} {cs r r' t t' : List Char} {a : Ast}
  {names : List (List Char)}

inductive Turn where
  | stop
  | go (p : GroupProgress)
  | enter (change : FlagChange) (p : GroupProgress)

namespace GroupProgress

def opened? (p : GroupProgress) : Opening → Option Turn
  | .flags change =>
    some (.go { p.push (.flags change) with
      verbose := (change.setting? .verbose).getD p.verbose })
  | .group change name =>
    if name.any p.names.contains then none
    else some (.enter change
      (.start ((change.setting? .verbose).getD p.verbose) (name.toList ++ p.names)))

def repeated? (p : GroupProgress) (least : Nat) (most : Option Nat) (cs : List Char) :
    Option (Turn × List Char) :=
  (p.repeatLast? least most (lazyMark cs).1).map fun q => (.go q, (lazyMark cs).2)

def left (p : GroupProgress) (change : FlagChange) (body : Ast) (names : List (List Char)) :
    GroupProgress := { p.push (.group change body) with names }

end GroupProgress

def turnOn? (p : GroupProgress) : List Char → Option (Turn × List Char)
  | [] => some (.stop, [])
  | ')' :: rest => some (.stop, ')' :: rest)
  | '|' :: rest => some (.go p.branch, rest)
  | '?' :: rest => p.repeated? 0 (some 1) rest
  | '*' :: rest => p.repeated? 0 none rest
  | '+' :: rest => p.repeated? 1 none rest
  | '{' :: rest =>
    (counts? p.verbose rest).bind fun (bounds, rest) =>
      p.repeated? bounds.1 bounds.2 (skip p.verbose rest)
  | '(' :: rest =>
    (opening? p.verbose rest).bind fun (o, rest) => (p.opened? o).map (·, rest)
  | '[' :: rest => (bracketed? p.verbose rest).map fun (a, rest) => (.go (p.push a), rest)
  | '\\' :: rest => (escape? p.verbose rest).map fun (a, rest) => (.go (p.push a), rest)
  | '.' :: rest => some (.go (p.push .dot), rest)
  | '^' :: rest => some (.go (p.push (.assertion .lineStart)), rest)
  | '$' :: rest => some (.go (p.push (.assertion .lineEnd)), rest)
  | c :: rest => some (.go (p.push (.literal c false)), rest)

def turn? (p : GroupProgress) (cs : List Char) : Option (Turn × List Char) :=
  turnOn? p (skip p.verbose cs)

theorem alternatives?_succ (n : Nat) (p : GroupProgress) (cs : List Char) :
    alternatives? (n + 1) p cs =
      match turn? p cs with
      | none => none
      | some (.stop, rest) => some (p.close, p.names, rest)
      | some (.go p, rest) => alternatives? n p rest
      | some (.enter change q, rest) =>
        match alternatives? n q rest with
        | some (body, names, ')' :: rest) => alternatives? n (p.left change body names) rest
        | _ => none := by
  rw [alternatives?]
  unfold turn?
  generalize skip p.verbose cs = u
  split
  · rfl
  · rfl
  · rfl
  · next rest =>
    have hturn : turnOn? p ('?' :: rest) = p.repeated? 0 (some 1) rest := rfl
    simp only [hturn, GroupProgress.repeated?]
    cases p.repeatLast? 0 (some 1) (lazyMark rest).1 <;> rfl
  · next rest =>
    have hturn : turnOn? p ('*' :: rest) = p.repeated? 0 none rest := rfl
    simp only [hturn, GroupProgress.repeated?]
    cases p.repeatLast? 0 none (lazyMark rest).1 <;> rfl
  · next rest =>
    have hturn : turnOn? p ('+' :: rest) = p.repeated? 1 none rest := rfl
    simp only [hturn, GroupProgress.repeated?]
    cases p.repeatLast? 1 none (lazyMark rest).1 <;> rfl
  · next rest =>
    have hturn : turnOn? p ('{' :: rest) = (counts? p.verbose rest).bind fun x =>
      p.repeated? x.1.1 x.1.2 (skip p.verbose x.2) := rfl
    rw [hturn]
    rcases counts? p.verbose rest with _ | ⟨⟨least, most⟩, after⟩
    · rfl
    · simp only [Option.bind_some, GroupProgress.repeated?]
      cases p.repeatLast? least most (lazyMark (skip p.verbose after)).1 <;> rfl
  · next rest =>
    have hturn : turnOn? p ('(' :: rest) = (opening? p.verbose rest).bind fun x =>
      (p.opened? x.1).map (·, x.2) := rfl
    rw [hturn]
    rcases opening? p.verbose rest with _ | ⟨_ | ⟨change, name⟩, after⟩
    · rfl
    · rfl
    · simp only [Option.bind_some, GroupProgress.opened?]
      split <;> rfl
  · next rest =>
    have hturn : turnOn? p ('[' :: rest) = (bracketed? p.verbose rest).map fun x =>
      (.go (p.push x.1), x.2) := rfl
    rw [hturn]
    cases bracketed? p.verbose rest <;> rfl
  · next rest =>
    have hturn : turnOn? p ('\\' :: rest) = (escape? p.verbose rest).map fun x =>
      (.go (p.push x.1), x.2) := rfl
    rw [hturn]
    cases escape? p.verbose rest <;> rfl
  · rfl
  · rfl
  · rfl
  · next c rest _ _ _ _ _ _ _ _ _ _ _ _ =>
    have hturn : turnOn? p (c :: rest) = some (.go (p.push (.literal c false)), rest) := by
      unfold turnOn?
      split <;> simp_all
    rw [hturn]

theorem lazyMark_suffix (cs : List Char) : (lazyMark cs).2 <:+ cs := by
  unfold lazyMark
  split
  · exact List.suffix_cons _ _
  · exact List.suffix_rfl

theorem GroupProgress.repeated?_suffix {least : Nat} {most : Option Nat} {x : Turn}
    (h : p.repeated? least most cs = some (x, t)) : t <:+ cs := by
  obtain ⟨q, -, heq⟩ := Option.map_eq_some_iff.mp h
  cases heq
  exact lazyMark_suffix cs

theorem GroupProgress.repeated?_ne_stop {least : Nat} {most : Option Nat} {x : Turn}
    (h : p.repeated? least most cs = some (x, t)) : x ≠ .stop := by
  obtain ⟨q, -, heq⟩ := Option.map_eq_some_iff.mp h
  cases heq
  exact Turn.noConfusion

theorem GroupProgress.opened?_ne_stop {o : Opening} {x : Turn} (h : p.opened? o = some x) :
    x ≠ .stop := by
  unfold opened? at h
  split at h
  · cases h
    exact Turn.noConfusion
  · split at h
    · cases h
    · cases h
      exact Turn.noConfusion

/-- A turn that does not stop takes a character. -/
theorem turn?_suffix {x : Turn} (h : turn? p cs = some (x, t)) (hx : x ≠ .stop) :
    t <:+ cs ∧ t.length < cs.length := by
  unfold turn? turnOn? at h
  split at h
  · cases h
    exact absurd rfl hx
  · cases h
    exact absurd rfl hx
  · next hcs =>
    cases h
    exact suffix_of_skip hcs List.suffix_rfl
  · next hcs => exact suffix_of_skip hcs (GroupProgress.repeated?_suffix h)
  · next hcs => exact suffix_of_skip hcs (GroupProgress.repeated?_suffix h)
  · next hcs => exact suffix_of_skip hcs (GroupProgress.repeated?_suffix h)
  · next hcs =>
    obtain ⟨⟨bounds, after⟩, hcounts, h⟩ := Option.bind_eq_some_iff.mp h
    have hmark := (GroupProgress.repeated?_suffix h).trans (skip_suffix p.verbose after)
    exact suffix_of_skip hcs (hmark.trans (counts?_suffix hcounts))
  · next hcs =>
    obtain ⟨⟨o, after⟩, hopening, h⟩ := Option.bind_eq_some_iff.mp h
    obtain ⟨y, -, heq⟩ := Option.map_eq_some_iff.mp h
    cases heq
    exact suffix_of_skip hcs (opening?_suffix hopening)
  · next hcs =>
    obtain ⟨⟨a, after⟩, hclass, heq⟩ := Option.map_eq_some_iff.mp h
    cases heq
    exact suffix_of_skip hcs (bracketed?_suffix hclass)
  · next hcs =>
    obtain ⟨⟨a, after⟩, hescape, heq⟩ := Option.map_eq_some_iff.mp h
    cases heq
    exact suffix_of_skip hcs (escape?_suffix hescape)
  · next hcs =>
    cases h
    exact suffix_of_skip hcs List.suffix_rfl
  · next hcs =>
    cases h
    exact suffix_of_skip hcs List.suffix_rfl
  · next hcs =>
    cases h
    exact suffix_of_skip hcs List.suffix_rfl
  · next hcs =>
    cases h
    exact suffix_of_skip hcs List.suffix_rfl

theorem turn?_nil (p : GroupProgress) : turn? p [] = some (.stop, []) := by
  unfold turn? turnOn?
  cases p.verbose <;> rfl

theorem turn?_stop (h : turn? p cs = some (.stop, t)) :
    t = skip p.verbose cs ∧ (t = [] ∨ ∃ rest, t = ')' :: rest) := by
  unfold turn? turnOn? at h
  split at h
  · next heq =>
    cases h
    exact ⟨heq.symm, .inl rfl⟩
  · next rest heq =>
    cases h
    exact ⟨heq.symm, .inr ⟨rest, rfl⟩⟩
  · cases h
  · exact absurd rfl (GroupProgress.repeated?_ne_stop h)
  · exact absurd rfl (GroupProgress.repeated?_ne_stop h)
  · exact absurd rfl (GroupProgress.repeated?_ne_stop h)
  · obtain ⟨x, -, h⟩ := Option.bind_eq_some_iff.mp h
    exact absurd rfl (GroupProgress.repeated?_ne_stop h)
  · obtain ⟨x, -, h⟩ := Option.bind_eq_some_iff.mp h
    obtain ⟨y, hy, heq⟩ := Option.map_eq_some_iff.mp h
    cases heq
    exact absurd rfl (GroupProgress.opened?_ne_stop hy)
  · obtain ⟨x, -, heq⟩ := Option.map_eq_some_iff.mp h
    cases heq
  · obtain ⟨x, -, heq⟩ := Option.map_eq_some_iff.mp h
    cases heq
  · cases h
  · cases h
  · cases h
  · cases h

/-- Alternatives are read in turns, up to the end of the source or a closing parenthesis that they
did not open. The names of groups go along with the reading. -/
inductive Parses : GroupProgress → List Char → Ast → List (List Char) → List Char → Prop
  | stop {p : GroupProgress} {cs t : List Char} (h : turn? p cs = some (.stop, t)) :
    Parses p cs p.close p.names t
  | go {p q : GroupProgress} {cs t u : List Char} {a : Ast} {names : List (List Char)}
    (h : turn? p cs = some (.go q, t)) (rest : Parses q t a names u) : Parses p cs a names u
  | enter {p q : GroupProgress} {cs t u w : List Char} {change : FlagChange} {body a : Ast}
    {inner names : List (List Char)} (h : turn? p cs = some (.enter change q, t))
    (group : Parses q t body inner (')' :: u))
    (rest : Parses (p.left change body inner) u a names w) : Parses p cs a names w

namespace Parses

theorem suffix (h : Parses p cs a names t) : t <:+ cs := by
  induction h with
  | @stop p cs t h =>
    rw [(turn?_stop h).1]
    exact skip_suffix p.verbose cs
  | go h _ ih => exact ih.trans (turn?_suffix h (by simp)).1
  | enter h _ _ ihg ih =>
    have hgroup := (List.suffix_cons ')' _).trans ihg
    exact (ih.trans hgroup).trans (turn?_suffix h (by simp)).1

theorem stops (h : Parses p cs a names t) : t = [] ∨ ∃ rest, t = ')' :: rest := by
  induction h with
  | stop h => exact (turn?_stop h).2
  | go _ _ ih => exact ih
  | enter _ _ _ _ ih => exact ih

theorem of_alternatives? {n : Nat} (h : alternatives? n p cs = some (a, names, t)) :
    Parses p cs a names t := by
  induction n generalizing p cs a names t with
  | zero => cases h
  | succ n ih =>
    rw [alternatives?_succ] at h
    split at h
    · cases h
    · next hturn =>
      cases h
      exact .stop hturn
    · next hturn => exact .go hturn (ih h)
    · next hturn =>
      split at h
      · next hgroup => exact .enter hturn (ih hgroup) (ih h)
      · cases h

theorem alternatives?_eq (h : Parses p cs a names t) {n : Nat} (hn : cs.length < n) :
    alternatives? n p cs = some (a, names, t) := by
  induction h generalizing n with
  | stop h =>
    obtain ⟨n, rfl⟩ := Nat.exists_eq_succ_of_ne_zero (Nat.ne_zero_of_lt hn)
    rw [alternatives?_succ, h]
  | go h _ ih =>
    obtain ⟨n, rfl⟩ := Nat.exists_eq_succ_of_ne_zero (Nat.ne_zero_of_lt hn)
    have hlt := (turn?_suffix h (by simp)).2
    rw [alternatives?_succ, h]
    exact ih (by omega)
  | enter h group _ ihg ih =>
    obtain ⟨n, rfl⟩ := Nat.exists_eq_succ_of_ne_zero (Nat.ne_zero_of_lt hn)
    have hlt := (turn?_suffix h (by simp)).2
    have hle := group.suffix.length_le
    rw [List.length_cons] at hle
    rw [alternatives?_succ, h]
    dsimp only
    rw [ihg (by omega)]
    exact ih (by omega)

/-- A source is read in one way. -/
theorem unique {b : Ast} {names' : List (List Char)} (h : Parses p cs a names t)
    (h' : Parses p cs b names' t') : a = b ∧ names = names' ∧ t = t' := by
  have heq := (h.alternatives?_eq (Nat.lt_succ_self _)).symm.trans
    (h'.alternatives?_eq (Nat.lt_succ_self _))
  simpa using heq

end Parses

theorem Ast.parse?_eq_some_iff :
    Ast.parse? cs = some a ↔
      (∃ names, Parses (.start false []) cs a names []) ∧ a.depth .apart ≤ Ast.maxDepth := by
  have hn : cs.length < cs.length + 1 := Nat.lt_succ_self _
  unfold Ast.parse?
  constructor
  · intro h
    split at h
    · next hread =>
      split at h
      · next hdepth =>
        cases h
        exact ⟨⟨_, .of_alternatives? hread⟩, hdepth⟩
      · cases h
    · cases h
  · rintro ⟨⟨names, h⟩, hdepth⟩
    rw [h.alternatives?_eq hn]
    exact if_pos hdepth

theorem Seam.lazyMark (h : Seam H r r') : Abreast H (lazyMark r) (lazyMark r') := by
  by_cases hmark : ∃ rest, r = '?' :: rest
  · obtain ⟨rest, rfl⟩ := hmark
    obtain ⟨rest', rfl, hseam⟩ := h.of_cons
    exact .mk false hseam
  · have hgreedy (cs : List Char) (hcs : ∀ rest, cs ≠ '?' :: rest) :
        Regex.lazyMark cs = (true, cs) := by
      unfold Regex.lazyMark
      split
      · next rest => exact absurd rfl (hcs rest)
      · rfl
    have hplain : ∀ rest, r ≠ '?' :: rest := fun rest heq => hmark ⟨rest, heq⟩
    rw [hgreedy r hplain, hgreedy r']
    · exact .mk true h
    · rintro rest rfl
      obtain ⟨rest, rfl, -⟩ := h.cons_of_ne (by decide)
      exact hplain rest rfl

theorem repeated?_follows (p : GroupProgress) (least : Nat) (most : Option Nat)
    (h : Seam H r r') : FollowsOn H (p.repeated? least most r) (p.repeated? least most r') := by
  have hmark := h.lazyMark
  unfold GroupProgress.repeated?
  rw [hmark.result]
  cases p.repeatLast? least most (Regex.lazyMark r').1 with
  | none => exact .failed
  | some q => exact .read _ hmark.seam

/-- What only the parenthesis made readable leads nowhere: it is the end, or a brace that begins no
repetition. -/
def Turn.Spent (x : Turn) (t : List Char) : Prop :=
  ∃ q, x = .go q ∧ (t = [] ∨ ∃ rest, t = '{' :: rest ∧ skip q.verbose rest = [')'])

theorem turn?_follows (p : GroupProgress) (h : Seam H r r') :
    Follows H Turn.Spent (turn? p r) (turn? p r') := by
  have hskip := h.skip p.verbose
  unfold turn? turnOn?
  generalize skip p.verbose r = u at hskip
  generalize skip p.verbose r' = u' at hskip
  split
  · rcases hskip.nil_cases with rfl | rfl
    · exact .read _ hskip
    · exact .read _ hskip
  · obtain ⟨rest', rfl, hrest⟩ := hskip.of_cons
    exact .read _ hskip
  · obtain ⟨rest', rfl, hrest⟩ := hskip.of_cons
    exact .read _ hrest
  · obtain ⟨rest', rfl, hrest⟩ := hskip.of_cons
    exact (repeated?_follows p _ _ hrest).on
  · obtain ⟨rest', rfl, hrest⟩ := hskip.of_cons
    exact (repeated?_follows p _ _ hrest).on
  · obtain ⟨rest', rfl, hrest⟩ := hskip.of_cons
    exact (repeated?_follows p _ _ hrest).on
  · obtain ⟨rest', rfl, hrest⟩ := hskip.of_cons
    rename_i rest
    change Follows H _
      ((counts? p.verbose rest).bind fun (bounds, rest) =>
        p.repeated? bounds.1 bounds.2 (skip p.verbose rest))
      ((counts? p.verbose rest').bind fun (bounds, rest) =>
        p.repeated? bounds.1 bounds.2 (skip p.verbose rest))
    have hcounts := counts?_follows p.verbose hrest
    generalize counts? p.verbose rest = o at hcounts
    generalize counts? p.verbose rest' = o' at hcounts
    cases hcounts with
    | failed => exact .failed
    | read bounds hseam => exact (repeated?_follows p _ _ (hseam.skip p.verbose)).on
    | spent _ hspent => cases hspent
  · obtain ⟨rest', rfl, hrest⟩ := hskip.of_cons
    refine (opening?_follows hrest).filterMap p.opened? ?_
    rintro o t x ⟨rfl, change, rfl⟩ hx
    cases hx
    exact ⟨_, rfl, .inl rfl⟩
  · obtain ⟨rest', rfl, hrest⟩ := hskip.of_cons
    exact (bracketed?_follows p.verbose hrest).map (fun a => Turn.go (p.push a))
      fun _ _ => False.elim
  · obtain ⟨rest', rfl, hrest⟩ := hskip.of_cons
    refine (escape?_follows hrest).map (fun a => Turn.go (p.push a)) ?_
    rintro a t (ht | ⟨-, hbrace⟩)
    · exact ⟨_, rfl, .inl ht⟩
    · exact ⟨_, rfl, .inr hbrace⟩
  · obtain ⟨rest', rfl, hrest⟩ := hskip.of_cons
    exact .read _ hrest
  · obtain ⟨rest', rfl, hrest⟩ := hskip.of_cons
    exact .read _ hrest
  · obtain ⟨rest', rfl, hrest⟩ := hskip.of_cons
    exact .read _ hrest
  · obtain ⟨rest', rfl, hrest⟩ := hskip.of_cons
    split <;> simp_all
    exact .read _ hrest

/-- An opening brace with the parenthesis behind it begins no repetition. -/
theorem counts?_paren {verbose : Bool} (h : skip verbose cs = [')']) :
    counts? verbose cs = none := by
  rw [counts?_eq, h]
  cases verbose <;> rfl

theorem Parses.of_spent (h : Parses p cs a names t) (hspent : Turn.Spent (.go p) cs) : t = [] := by
  obtain ⟨q, hgo, hcs⟩ := hspent
  cases hgo
  have hbrace (rest : List Char) (hrest : skip p.verbose rest = [')']) :
      turn? p ('{' :: rest) = none := by
    unfold turn? turnOn?
    rw [skip_of_visible (by decide) (by decide)]
    simp [counts?_paren hrest]
  have hturn : turn? p cs = none ∨ turn? p cs = some (.stop, []) := by
    rcases hcs with rfl | ⟨rest, rfl, hrest⟩
    · exact .inr (turn?_nil p)
    · exact .inl (hbrace rest hrest)
  cases h with
  | stop h => rcases hturn with hturn | hturn <;> simp_all
  | go h _ => rcases hturn with hturn | hturn <;> simp_all
  | enter h _ _ => rcases hturn with hturn | hturn <;> simp_all

namespace Parses

/-- A source that is read without the parenthesis is read with it, to the same tree. -/
theorem behind (h : Parses p r a names t) (hseam : Seam H r r') :
    ∃ t', Parses p r' a names t' ∧ Seam H t t' := by
  induction h generalizing r' with
  | @stop p r t h =>
    obtain ⟨t', hturn, hend⟩ := (h ▸ turn?_follows p hseam).of_some
    exact ⟨t', .stop hturn, hend⟩
  | @go p q r t u a names h _ ih =>
    obtain ⟨t', hturn, hrest⟩ := (h ▸ turn?_follows p hseam).of_some
    obtain ⟨u', hread, hend⟩ := ih hrest
    exact ⟨u', .go hturn hread, hend⟩
  | @enter p q r t u w change body a inner names h _ _ ihg ih =>
    obtain ⟨t', hturn, hrest⟩ := (h ▸ turn?_follows p hseam).of_some
    obtain ⟨v', hgroup, hparen⟩ := ihg hrest
    obtain ⟨u', rfl, hafter⟩ := hparen.of_cons
    obtain ⟨w', hread, hend⟩ := ih hafter
    exact ⟨w', .enter hturn hgroup hread, hend⟩

/-- A reading with the parenthesis that does not get to the end is one without it. -/
theorem without (h : Parses p r' a names t') (hseam : Seam H r r') (hne : t' ≠ []) :
    ∃ t, Parses p r a names t ∧ Seam H t t' := by
  induction h generalizing r with
  | @stop p r' t' h =>
    rcases (h ▸ turn?_follows p hseam).of_some' with ⟨t, hturn, hend⟩ | ⟨q, hgo, -⟩
    · exact ⟨t, .stop hturn, hend⟩
    · cases hgo
  | @go p q r' t' u' a names h hread ih =>
    rcases (h ▸ turn?_follows p hseam).of_some' with ⟨t, hturn, hrest⟩ | hspent
    · obtain ⟨u, hread, hend⟩ := ih hrest hne
      exact ⟨u, .go hturn hread, hend⟩
    · exact absurd (hread.of_spent hspent) hne
  | @enter p q r' t' u' w' change body a inner names h hgroup hread ihg ih =>
    rcases (h ▸ turn?_follows p hseam).of_some' with ⟨t, hturn, hrest⟩ | ⟨q, hgo, -⟩
    · obtain ⟨v, hgroup, hparen⟩ := ihg hrest (List.cons_ne_nil _ _)
      rcases hparen.cons_cases with ⟨rfl, -, rfl⟩ | ⟨u, rfl, hafter⟩
      · -- the parenthesis closes the group, and behind it nothing is left to stop at
        exact absurd (List.length_eq_zero_iff.mp (Nat.le_zero.mp hread.suffix.length_le)) hne
      · obtain ⟨w, hread, hend⟩ := ih hafter hne
        exact ⟨w, .enter hturn hgroup hread, hend⟩
    · cases hgo

end Parses

end TableLexer.Regex
