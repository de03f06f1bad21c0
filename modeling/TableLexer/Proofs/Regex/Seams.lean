import TableLexer.Proofs.Regex.Remainders

/-!
# A closing parenthesis behind a source

The same source is read twice, once as it is and once with a closing parenthesis behind it. The two
readings go side by side: at every point the parenthesis still stands behind what is left, or a
comment on the last line of the source has swallowed it and both readings are at their end. This
module shows it for the small parts of a source.
-/
namespace TableLexer.Regex

variable {H : Prop} {α β : Type} {verbose : Bool} {c : Char} {r r' t cs : List Char}

/-- The last line of a text has a number sign, so a comment may reach to its end. -/
def HashOnLastLine (cs : List Char) : Prop :=
  ∃ before comment, cs = before ++ '#' :: comment ∧ '\n' ∉ comment

theorem HashOnLastLine.of_suffix (h : HashOnLastLine t) (hsuffix : t <:+ cs) :
    HashOnLastLine cs := by
  obtain ⟨front, rfl⟩ := hsuffix
  obtain ⟨before, comment, rfl, hline⟩ := h
  exact ⟨front ++ before, comment, by simp, hline⟩

/-- What is left of the source, and of the source with the parenthesis behind it. A parenthesis
can only be swallowed if `H`. -/
inductive Seam (H : Prop) : List Char → List Char → Prop
  | behind {r : List Char} (h : HashOnLastLine r → H) : Seam H r (r ++ [')'])
  | swallowed (h : H) : Seam H [] []

namespace Seam

theorem nil_cases (h : Seam H [] t) : t = [')'] ∨ t = [] := by
  cases h with
  | behind _ => exact .inl rfl
  | swallowed _ => exact .inr rfl

theorem of_append {front : List Char} (h : Seam H (front ++ r) t) :
    ∃ r', t = front ++ r' ∧ Seam H r r' := by
  generalize hcs : front ++ r = cs at h
  cases h with
  | behind h =>
    subst hcs
    exact ⟨r ++ [')'], by simp, .behind fun hr => h (hr.of_suffix (List.suffix_append _ _))⟩
  | swallowed h =>
    obtain ⟨rfl, rfl⟩ := List.append_eq_nil_iff.mp hcs
    exact ⟨[], rfl, .swallowed h⟩

theorem of_cons (h : Seam H (c :: r) t) : ∃ r', t = c :: r' ∧ Seam H r r' := by
  have h : Seam H ([c] ++ r) t := h
  exact of_append h

theorem cons_of_ne (hc : c ≠ ')') (h : Seam H r (c :: t)) :
    ∃ rest, r = c :: rest ∧ Seam H rest t := by
  cases r with
  | nil =>
    rcases h.nil_cases with heq | heq
    · exact absurd (List.cons.inj heq).1 hc
    · cases heq
  | cons d rest =>
    obtain ⟨r', heq, hseam⟩ := h.of_cons
    cases heq
    exact ⟨rest, rfl, hseam⟩

theorem cons_cases (h : Seam H r (c :: t)) :
    r = [] ∧ c = ')' ∧ t = [] ∨ ∃ rest, r = c :: rest ∧ Seam H rest t := by
  by_cases hc : c = ')'
  · cases r with
    | nil =>
      rcases h.nil_cases with heq | heq
      · exact .inl ⟨rfl, hc, (List.cons.inj heq).2⟩
      · cases heq
    | cons d rest =>
      obtain ⟨r', heq, hseam⟩ := h.of_cons
      cases heq
      exact .inr ⟨rest, rfl, hseam⟩
  · exact .inr (h.cons_of_ne hc)

end Seam

/-- Filler swallows the parenthesis only in a comment that was open before or that begins on the
last line. -/
theorem skipFiller_behind (inComment : Bool) (cs : List Char) :
    skipFiller inComment (cs ++ [')']) = skipFiller inComment cs ++ [')'] ∨
      skipFiller inComment (cs ++ [')']) = [] ∧ skipFiller inComment cs = [] ∧
        (inComment = true ∧ '\n' ∉ cs ∨ HashOnLastLine cs) := by
  induction cs generalizing inComment with
  | nil =>
    cases inComment with
    | true => exact .inr ⟨rfl, rfl, .inl ⟨rfl, by simp⟩⟩
    | false => exact .inl rfl
  | cons c cs ih =>
    rw [List.cons_append, skipFiller, skipFiller]
    have hlater : HashOnLastLine cs → HashOnLastLine (c :: cs) :=
      fun h => h.of_suffix (List.suffix_cons c cs)
    split_ifs with hcomment hblank hhash
    · rcases ih (c != '\n') with heq | ⟨h, h', ⟨hc, hline⟩ | hopen⟩
      · exact .inl heq
      · have hline' : '\n' ∉ c :: cs := by simpa [hline] using Ne.symm (bne_iff_ne.mp hc)
        exact .inr ⟨h, h', .inl ⟨hcomment, hline'⟩⟩
      · exact .inr ⟨h, h', .inr (hlater hopen)⟩
    · rcases ih false with heq | ⟨h, h', hopen⟩
      · exact .inl heq
      · exact .inr ⟨h, h', .inr (hlater (hopen.resolve_left (by simp)))⟩
    · rcases ih true with heq | ⟨h, h', ⟨-, hline⟩ | hopen⟩
      · exact .inl heq
      · have hcs : c :: cs = [] ++ '#' :: cs := by rw [List.nil_append, eq_of_beq hhash]
        exact .inr ⟨h, h', .inr ⟨[], cs, hcs, hline⟩⟩
      · exact .inr ⟨h, h', .inr (hlater hopen)⟩
    · exact .inl rfl

theorem Seam.skip (h : Seam H r r') (verbose : Bool) :
    Seam H (skip verbose r) (skip verbose r') := by
  cases h with
  | swallowed h =>
    cases verbose with
    | false => exact .swallowed h
    | true => exact .swallowed h
  | behind h =>
    cases verbose with
    | false => exact .behind h
    | true =>
      have hsuffix := skipFiller_suffix false r
      rcases skipFiller_behind false r with hskip | ⟨hskip, hskip', hopen⟩
      · rw [Regex.skip, if_pos rfl, Regex.skip, if_pos rfl, hskip]
        exact .behind fun hhash => h (hhash.of_suffix hsuffix)
      · rw [Regex.skip, if_pos rfl, Regex.skip, if_pos rfl, hskip, hskip']
        exact .swallowed (h (hopen.resolve_left (by simp)))

theorem Seam.dropWhile {p : Char → Bool} (hp : p ')' = false) (h : Seam H r r') :
    Seam H (r.dropWhile p) (r'.dropWhile p) := by
  cases h with
  | swallowed h => exact .swallowed h
  | behind h =>
    have hend : ([')'] : List Char).dropWhile p = [')'] := by simp [hp]
    rw [List.dropWhile_append]
    split
    · next hnil =>
      rw [List.isEmpty_iff.mp hnil, hend]
      exact .behind fun hhash => h (hhash.of_suffix (List.nil_suffix))
    · exact .behind fun hhash => h (hhash.of_suffix (List.dropWhile_suffix p))

/-- What is read up to a character other than the parenthesis is the same, if that character
comes. -/
theorem Seam.upTo {p : Char → Bool} (hp : p ')' = true) (h : Seam H r r') :
    r.dropWhile p = [] ∧ r'.dropWhile p = [] ∨
      r'.takeWhile p = r.takeWhile p ∧ r.dropWhile p ≠ [] ∧
        Seam H (r.dropWhile p) (r'.dropWhile p) := by
  cases h with
  | swallowed _ => exact .inl ⟨rfl, rfl⟩
  | behind h =>
    have hend : ([')'] : List Char).dropWhile p = [] := by simp [hp]
    rw [List.dropWhile_append]
    cases hd : r.dropWhile p with
    | nil => exact .inl ⟨rfl, by simpa using hend⟩
    | cons d rest =>
      have hsplit := List.takeWhile_append_dropWhile (p := p) (l := r)
      have hsuffix := List.dropWhile_suffix p (l := r)
      rw [hd] at hsplit hsuffix
      have hlen : (r.takeWhile p).length ≠ r.length := by
        intro heq
        have hall := congrArg List.length hsplit
        simp [heq] at hall
      refine .inr ⟨?_, by simp, .behind fun hhash => h (hhash.of_suffix hsuffix)⟩
      rw [List.takeWhile_append, if_neg hlen]

inductive Abreast (H : Prop) {α : Type} : α × List Char → α × List Char → Prop
  | mk (x : α) {t t' : List Char} (h : Seam H t t') : Abreast H (x, t) (x, t')

theorem Abreast.result {x x' : α × List Char} (h : Abreast H x x') : x.1 = x'.1 := by
  cases h with
  | mk x _ => rfl

theorem Abreast.seam {x x' : α × List Char} (h : Abreast H x x') : Seam H x.2 x'.2 := by
  cases h with
  | mk x hseam => exact hseam

theorem Seam.takeRun (verbose : Bool) {p : Char → Bool} (hp : p ')' = false) {n n' : Nat}
    (h : Seam H r r') (hn : r.length ≤ n) (hn' : r'.length ≤ n') :
    Abreast H (takeRun verbose p n r) (takeRun verbose p n' r') := by
  induction n generalizing r r' n' with
  | zero =>
    obtain rfl := List.length_eq_zero_iff.mp (Nat.le_zero.mp hn)
    rcases h.nil_cases with rfl | rfl
    · simpa [takeRun_stops hp] using .mk [] h
    · simpa using .mk [] h
  | succ n ih =>
    cases r with
    | nil =>
      rcases h.nil_cases with rfl | rfl
      · simpa [takeRun_stops hp] using .mk [] h
      · simpa using .mk [] h
    | cons c r =>
      obtain ⟨r', rfl, hrest⟩ := h.of_cons
      cases n' with
      | zero => simp at hn'
      | succ n' =>
        simp only [List.length_cons, Nat.add_le_add_iff_right] at hn hn'
        have hroom : (Regex.skip verbose r).length ≤ n :=
          Nat.le_trans (skip_suffix verbose r).length_le hn
        have hroom' : (Regex.skip verbose r').length ≤ n' :=
          Nat.le_trans (skip_suffix verbose r').length_le hn'
        have hrun := ih (hrest.skip verbose) hroom hroom'
        rw [Regex.takeRun, Regex.takeRun]
        split
        · generalize Regex.takeRun verbose p n (Regex.skip verbose r) = d at hrun
          generalize Regex.takeRun verbose p n' (Regex.skip verbose r') = d' at hrun
          cases hrun with
          | mk run hend => exact .mk (c :: run) hend
        · exact .mk [] h

/-- What the reader answers without the parenthesis and with it: the same result, with a seam in
what is left; no result twice; or a result with the parenthesis only, which leaves `Spent`. -/
inductive Follows (H : Prop) {α : Type} (Spent : α → List Char → Prop) :
    Option (α × List Char) → Option (α × List Char) → Prop
  | read (x : α) {t t' : List Char} (h : Seam H t t') : Follows H Spent (some (x, t)) (some (x, t'))
  | failed : Follows H Spent none none
  | spent (x : α) {t' : List Char} (h : Spent x t') : Follows H Spent none (some (x, t'))

abbrev FollowsOn (H : Prop) {α : Type} :
    Option (α × List Char) → Option (α × List Char) → Prop := Follows H fun _ _ => False

namespace Follows

variable {Spent : α → List Char → Prop} {Later : β → List Char → Prop}
  {o o' : Option (α × List Char)}

theorem filterMap (g : α → Option β) (h : Follows H Spent o o')
    (hspent : ∀ x t y, Spent x t → g x = some y → Later y t) :
    Follows H Later (o.bind fun (x, t) => (g x).map (·, t))
      (o'.bind fun (x, t) => (g x).map (·, t)) := by
  cases h with
  | failed => exact .failed
  | read x hseam =>
    cases hx : g x with
    | none => simpa [hx] using .failed
    | some y => simpa [hx] using .read y hseam
  | spent x hx =>
    cases hy : g x with
    | none => simpa [hy] using .failed
    | some y => simpa [hy] using .spent y (hspent x _ y hx hy)

theorem map (g : α → β) (h : Follows H Spent o o') (hspent : ∀ x t, Spent x t → Later (g x) t) :
    Follows H Later (o.map fun (x, t) => (g x, t)) (o'.map fun (x, t) => (g x, t)) := by
  cases h with
  | failed => exact .failed
  | read x hseam => exact .read (g x) hseam
  | spent x hx => exact .spent (g x) (hspent x _ hx)

theorem imp (h : Follows H Spent o o') {Spent' : α → List Char → Prop}
    (hspent : ∀ x t, Spent x t → Spent' x t) : Follows H Spent' o o' := by
  cases h with
  | failed => exact .failed
  | read x hseam => exact .read x hseam
  | spent x hx => exact .spent x (hspent x _ hx)

theorem of_some {x : α} {t : List Char} (h : Follows H Spent (some (x, t)) o') :
    ∃ t', o' = some (x, t') ∧ Seam H t t' := by
  cases h with
  | read x hseam => exact ⟨_, rfl, hseam⟩

theorem of_some' {x : α} {t' : List Char} (h : Follows H Spent o (some (x, t'))) :
    (∃ t, o = some (x, t) ∧ Seam H t t') ∨ Spent x t' := by
  cases h with
  | read x hseam => exact .inl ⟨_, rfl, hseam⟩
  | spent x hspent => exact .inr hspent

theorem on (h : FollowsOn H o o') : Follows H Spent o o' := h.imp fun _ _ => False.elim

end Follows

theorem Seam.decimal? (verbose : Bool) (h : Seam H r r') :
    Abreast H (decimal? verbose r) (decimal? verbose r') := by
  have hblanks := h.dropWhile (p := Text.isBlank) (by decide)
  have hle := (List.dropWhile_suffix Text.isBlank : r.dropWhile Text.isBlank <:+ r).length_le
  have hle' := (List.dropWhile_suffix Text.isBlank : r'.dropWhile Text.isBlank <:+ r').length_le
  have hrun := hblanks.takeRun verbose (p := Text.isAsciiDigit) (by decide) hle hle'
  unfold Regex.decimal?
  generalize Regex.takeRun verbose Text.isAsciiDigit r.length _ = d at hrun
  generalize Regex.takeRun verbose Text.isAsciiDigit r'.length _ = d' at hrun
  cases hrun with
  | mk digits hend => exact .mk _ (hend.dropWhile (by decide))

theorem upperBound?_follows (least : Nat) (h : Seam H r r') :
    FollowsOn H (upperBound? verbose least r) (upperBound? verbose least r') := by
  by_cases hclose : ∃ rest, r = '}' :: rest
  · obtain ⟨rest, rfl⟩ := hclose
    obtain ⟨rest', rfl, hseam⟩ := h.of_cons
    exact .read _ hseam
  · have hopen : ∀ rest, r ≠ '}' :: rest := fun rest heq => hclose ⟨rest, heq⟩
    have hopen' : ∀ rest, r' ≠ '}' :: rest := by
      rintro rest rfl
      obtain ⟨rest, rfl, -⟩ := h.cons_of_ne (by decide)
      exact hopen rest rfl
    have hmost := h.decimal? verbose
    rw [upperBound?_eq least hopen, upperBound?_eq least hopen']
    generalize decimal? verbose r = d at hmost
    generalize decimal? verbose r' = d' at hmost
    obtain ⟨most, hrest⟩ := hmost
    split
    · next most rest heq =>
      cases heq
      obtain ⟨rest', rfl, hseam⟩ := hrest.of_cons
      by_cases hle : least ≤ most
      · simpa only [if_pos hle] using .read _ hseam
      · simpa only [if_neg hle] using .failed
    · next hbound =>
      split
      · next most rest heq =>
        cases heq
        obtain ⟨rest, rfl, -⟩ := hrest.cons_of_ne (by decide)
        exact absurd rfl (hbound most rest)
      · exact .failed

theorem counts?_follows (verbose : Bool) (h : Seam H r r') :
    FollowsOn H (counts? verbose r) (counts? verbose r') := by
  have hleast := (h.skip verbose).decimal? verbose
  rw [counts?_eq, counts?_eq]
  generalize decimal? verbose (skip verbose r) = d at hleast
  generalize decimal? verbose (skip verbose r') = d' at hleast
  obtain ⟨least, hrest⟩ := hleast
  split
  · next least rest heq =>
    cases heq
    obtain ⟨rest', rfl, hseam⟩ := hrest.of_cons
    exact .read _ hseam
  · next least rest heq =>
    cases heq
    obtain ⟨rest', rfl, hseam⟩ := hrest.of_cons
    exact upperBound?_follows least (hseam.skip verbose)
  · next hclose hcomma =>
    split
    · next least rest heq =>
      cases heq
      obtain ⟨rest, rfl, -⟩ := hrest.cons_of_ne (by decide)
      exact absurd rfl (hclose least rest)
    · next least rest heq =>
      cases heq
      obtain ⟨rest, rfl, -⟩ := hrest.cons_of_ne (by decide)
      exact absurd rfl (hcomma least rest)
    · exact .failed

theorem hexDigits?_follows (n : Nat) (h : Seam H r r') :
    FollowsOn H (hexDigits? verbose n r) (hexDigits? verbose n r') := by
  induction n generalizing r r' with
  | zero => exact .read [] h
  | succ n ih =>
    cases r with
    | nil =>
      rcases h.nil_cases with rfl | rfl
      · exact .failed
      · exact .failed
    | cons c r =>
      obtain ⟨r', rfl, hrest⟩ := h.of_cons
      rw [hexDigits?, hexDigits?]
      split
      · exact (ih (hrest.skip verbose)).map (c :: ·) fun _ _ => False.elim
      · exact .failed

theorem codePoint?_follows (width : Nat) (h : Seam H r r') :
    FollowsOn H (codePoint? verbose width r) (codePoint? verbose width r') := by
  have hskip := h.skip verbose
  by_cases hbrace : ∃ rest, skip verbose r = '{' :: rest
  · obtain ⟨rest, hrest⟩ := hbrace
    rw [hrest] at hskip
    obtain ⟨rest', hrest', hseam⟩ := hskip.of_cons
    have hdigits := (hseam.skip verbose).takeRun verbose (p := isHex)
      (by decide) (skip_suffix verbose rest).length_le (skip_suffix verbose rest').length_le
    rw [codePoint?_braced width hrest, codePoint?_braced width hrest']
    generalize takeRun verbose isHex rest.length (skip verbose rest) = d at hdigits
    generalize takeRun verbose isHex rest'.length (skip verbose rest') = d' at hdigits
    obtain ⟨digits, hend⟩ := hdigits
    split
    · next after heq =>
      cases heq
      obtain ⟨after', rfl, hafter⟩ := hend.of_cons
      by_cases hempty : digits.isEmpty
      · simpa only [if_pos hempty] using .failed
      · simp only [if_neg hempty]
        cases scalar? (ofHex digits) with
        | none => exact .failed
        | some c => exact .read _ (hafter.skip verbose)
    · next hclose =>
      split
      · next digits after heq =>
        cases heq
        obtain ⟨after, rfl, -⟩ := hend.cons_of_ne (by decide)
        exact absurd rfl (hclose digits after)
      · exact .failed
  · have hbare : ∀ rest, skip verbose r ≠ '{' :: rest := fun rest heq => hbrace ⟨rest, heq⟩
    have hbare' : ∀ rest, skip verbose r' ≠ '{' :: rest := by
      intro rest heq
      rw [heq] at hskip
      obtain ⟨rest, hrest, -⟩ := hskip.cons_of_ne (by decide)
      exact hbare rest hrest
    rw [codePoint?_bare width hbare, codePoint?_bare width hbare']
    exact (hexDigits?_follows width hskip).filterMap
      (fun digits => (scalar? (ofHex digits)).map (·, width == 2)) fun _ _ _ => False.elim

/-- A name in braces needs a closing one, which the parenthesis does not give. -/
theorem bracedName?_follows {n m : Nat} (h : Seam H r r') (hn : r.length < n) (hm : r'.length < m) :
    FollowsOn H (bracedName? verbose n r) (bracedName? verbose m r') := by
  induction n generalizing r r' m with
  | zero => exact absurd hn (Nat.not_lt_zero _)
  | succ n ih =>
    obtain ⟨m, rfl⟩ := Nat.exists_eq_succ_of_ne_zero (Nat.ne_zero_of_lt hm)
    cases r with
    | nil =>
      rcases h.nil_cases with rfl | rfl
      · have hspent : bracedName? verbose (m + 1) [')'] = none := by
          cases verbose <;> cases m <;> rfl
        rw [hspent]
        exact .failed
      · exact .failed
    | cons c r =>
      obtain ⟨r', rfl, hrest⟩ := h.of_cons
      have hle := (skip_suffix verbose r).length_le
      have hle' := (skip_suffix verbose r').length_le
      rw [List.length_cons] at hn hm
      rw [bracedName?, bracedName?]
      split
      · exact .read [] hrest
      · exact (ih (hrest.skip verbose) (by omega) (by omega)).map (c :: ·) fun _ _ => False.elim

/-- The parenthesis can be the one letter that names a property, and then nothing is left. -/
theorem propertyName?_follows (h : Seam H r r') :
    Follows H (fun _ t => t = []) (propertyName? verbose r) (propertyName? verbose r') := by
  have hskip := h.skip verbose
  cases hr : skip verbose r with
  | nil =>
    have hnone : propertyName? verbose r = none := by rw [propertyName?, hr]
    rw [hr] at hskip
    rw [hnone]
    rcases hskip.nil_cases with hr' | hr'
    · rw [propertyName?_letter (by decide) (by decide) hr']
      exact .spent _ rfl
    · rw [propertyName?, hr']
      exact .failed
  | cons c rest =>
    rw [hr] at hskip
    obtain ⟨rest', hr', hrest⟩ := hskip.of_cons
    by_cases hbrace : c = '{'
    · subst hbrace
      rw [propertyName?_braced hr, propertyName?_braced hr']
      have hle := (skip_suffix verbose rest).length_le
      have hle' := (skip_suffix verbose rest').length_le
      exact (bracedName?_follows (hrest.skip verbose) (by omega) (by omega)).on
    by_cases hslash : c = '\\'
    · subst hslash
      rw [propertyName?, propertyName?, hr, hr']
      exact .failed
    · rw [propertyName?_letter hbrace hslash hr, propertyName?_letter hbrace hslash hr']
      exact .read _ hrest

/-- What only the parenthesis made readable: an escape that ends with it, or a word boundary before
an opening brace that begins no repetition. -/
def Spent (verbose : Bool) (a : Ast) (t : List Char) : Prop :=
  t = [] ∨ a = .assertion .wordBoundary ∧ ∃ rest, t = '{' :: rest ∧ skip verbose rest = [')']

theorem wordBoundary?_follows (h : Seam H r r') :
    Follows H (fun a => Spent verbose (.assertion a)) (wordBoundary? verbose r)
      (wordBoundary? verbose r') := by
  by_cases hbrace : ∃ rest, r = '{' :: rest
  · obtain ⟨rest, rfl⟩ := hbrace
    obtain ⟨rest', rfl, hseam⟩ := h.of_cons
    have hskip := hseam.skip verbose
    have hname := hskip.takeRun verbose (p := namesBoundary) (by decide)
      (skip_suffix verbose rest).length_le (skip_suffix verbose rest').length_le
    rw [wordBoundary?_braced, wordBoundary?_braced]
    cases hu : skip verbose rest with
    | nil =>
      rw [hu] at hskip
      rcases hskip.nil_cases with hu' | hu'
      · rw [hu']
        exact .spent _ (.inr ⟨rfl, rest', rfl, hu'⟩)
      · rw [hu']
        exact .failed
    | cons c u =>
      rw [hu] at hskip hname
      obtain ⟨u', hu', -⟩ := hskip.of_cons
      rw [hu'] at hname
      simp only [hu']
      split
      · generalize takeRun verbose namesBoundary rest.length (c :: u) = d at hname
        generalize takeRun verbose namesBoundary rest'.length (c :: u') = d' at hname
        obtain ⟨name, hend⟩ := hname
        split
        · next after heq =>
          cases heq
          obtain ⟨after', rfl, hafter⟩ := hend.of_cons
          cases hassertion : wordAssertion? (String.ofList name) with
          | none => simpa only [hassertion] using .failed
          | some a => simpa only [hassertion] using .read a hafter
        · next hclose =>
          split
          · next after heq =>
            cases heq
            obtain ⟨after, rfl, -⟩ := hend.cons_of_ne (by decide)
            exact absurd rfl (hclose name after)
          · exact .failed
      · exact .read _ h
  · have hbare : ∀ rest, r ≠ '{' :: rest := fun rest heq => hbrace ⟨rest, heq⟩
    have hbare' : ∀ rest, r' ≠ '{' :: rest := by
      rintro rest rfl
      obtain ⟨rest, rfl, -⟩ := h.cons_of_ne (by decide)
      exact hbare rest rfl
    rw [wordBoundary?_bare hbare, wordBoundary?_bare hbare']
    exact .read _ h

theorem escape?_follows (h : Seam H r r') :
    Follows H (Spent verbose) (escape? verbose r) (escape? verbose r') := by
  cases r with
  | nil =>
    rcases h.nil_cases with rfl | rfl
    · exact .spent _ (.inl rfl)
    · exact .failed
  | cons c r =>
    obtain ⟨r', rfl, hrest⟩ := h.of_cons
    rcases escape?_cases verbose c with ⟨negated, hnamed⟩ | ⟨width, hcoded⟩ | hboundary | hletter
    · rw [hnamed, hnamed]
      refine (propertyName?_follows hrest).map (fun name => Ast.property name negated) ?_
      exact fun _ _ ht => .inl ht
    · rw [hcoded, hcoded]
      exact (codePoint?_follows width hrest).map (fun x => Ast.literal x.1 x.2)
        fun _ _ => False.elim
    · rw [hboundary, hboundary]
      exact (wordBoundary?_follows hrest).map Ast.assertion fun _ _ => id
    · rw [hletter r, hletter r']
      cases escape? verbose [c] with
      | none => exact .failed
      | some a => exact .read a.1 hrest

theorem groupName?_follows (h : Seam H r r') : FollowsOn H (groupName? r) (groupName? r') := by
  unfold groupName?
  rcases h.upTo (p := (· != '>')) (by decide) with ⟨hnone, hnone'⟩ | ⟨hname, -, hend⟩
  · rw [hnone, hnone']
    exact .failed
  · rw [hname]
    generalize r.dropWhile (· != '>') = u at hend
    generalize r'.dropWhile (· != '>') = u' at hend
    dsimp only
    split
    · obtain ⟨after', rfl, hafter⟩ := hend.of_cons
      split
      · exact .read _ hafter
      · exact .failed
    · next hother =>
      split
      · obtain ⟨rest, rfl, -⟩ := hend.cons_of_ne (by decide)
        exact absurd rfl (hother rest)
      · exact .failed

theorem flagChange?_follows {negated dangling : Bool} {seen : FlagChange} (h : Seam H r r') :
    Follows H (fun x t => x.2 = false ∧ t = []) (flagChange? negated dangling seen r)
      (flagChange? negated dangling seen r') := by
  induction r generalizing r' negated dangling seen with
  | nil =>
    rcases h.nil_cases with rfl | rfl
    · cases dangling with
      | false => exact .spent _ ⟨rfl, rfl⟩
      | true => exact .failed
    · exact .failed
  | cons c r ih =>
    obtain ⟨r', rfl, hrest⟩ := h.of_cons
    rw [flagChange?, flagChange?]
    split_ifs
    · exact .failed
    · exact .read _ hrest
    · exact .failed
    · exact ih hrest
    · cases flag? c with
      | none => exact .failed
      | some f =>
        dsimp only
        split_ifs
        · exact .failed
        · exact ih hrest

def ClosesFlags (o : Opening) (t : List Char) : Prop := t = [] ∧ ∃ change, o = .flags change

theorem flagGroup?_follows (h : Seam H r r') :
    Follows H ClosesFlags (flagGroup? r) (flagGroup? r') := by
  refine (flagChange?_follows h).filterMap Opening.ofFlags? ?_
  rintro ⟨change, colon⟩ t o ⟨rfl, rfl⟩ ho
  simp only [Opening.ofFlags?, Bool.false_eq_true, ↓reduceIte, Option.ite_none_left_eq_some] at ho
  exact ⟨rfl, change, (Option.some.inj ho.2).symm⟩

theorem namedGroup?_follows (h : Seam H r r') : FollowsOn H (namedGroup? r) (namedGroup? r') :=
  (groupName?_follows h).map (fun n => Opening.group [] (some n)) fun _ _ => False.elim

theorem markedGroup?_follows (h : Seam H r r') :
    Follows H ClosesFlags (markedGroup? r) (markedGroup? r') := by
  cases r with
  | nil =>
    rcases h.nil_cases with rfl | rfl
    · exact .failed
    · exact .failed
  | cons c r =>
    have hflags := flagGroup?_follows h
    obtain ⟨r', rfl, hrest⟩ := h.of_cons
    by_cases hequals : c = '='
    · subst hequals
      exact .failed
    by_cases hbang : c = '!'
    · subst hbang
      exact .failed
    by_cases hangle : c = '<'
    · subst hangle
      cases r with
      | nil =>
        rcases hrest.nil_cases with rfl | rfl
        · exact .failed
        · exact .failed
      | cons d r =>
        have hnamed : Follows H ClosesFlags (namedGroup? (d :: r)) (namedGroup? r') :=
          (namedGroup?_follows hrest).on
        obtain ⟨r', rfl, -⟩ := hrest.of_cons
        by_cases hahead : d = '='
        · subst hahead
          exact .failed
        by_cases hnot : d = '!'
        · subst hnot
          exact .failed
        rw [markedGroup?_angle hahead hnot, markedGroup?_angle hahead hnot]
        exact hnamed
    by_cases hname : ∃ rest, c = 'P' ∧ r = '<' :: rest
    · obtain ⟨rest, rfl, rfl⟩ := hname
      obtain ⟨rest', rfl, hseam⟩ := hrest.of_cons
      exact (namedGroup?_follows hseam).on
    · have hplain : c = 'P' → ∀ rest, r ≠ '<' :: rest :=
        fun hc rest heq => hname ⟨rest, hc, heq⟩
      have hplain' : c = 'P' → ∀ rest, r' ≠ '<' :: rest := by
        rintro hc rest rfl
        obtain ⟨rest, rfl, -⟩ := hrest.cons_of_ne (by decide)
        exact hplain hc rest rfl
      rw [markedGroup?_flags hequals hbang hangle hplain,
        markedGroup?_flags hequals hbang hangle hplain']
      exact hflags

theorem opening?_follows (h : Seam H r r') :
    Follows H ClosesFlags (opening? verbose r) (opening? verbose r') := by
  have hskip := h.skip verbose
  by_cases hmark : ∃ rest, skip verbose r = '?' :: rest
  · obtain ⟨rest, hrest⟩ := hmark
    rw [hrest] at hskip
    obtain ⟨rest', hrest', hseam⟩ := hskip.of_cons
    rw [opening?_marked hrest, opening?_marked hrest']
    exact markedGroup?_follows hseam
  · have hplain : ∀ rest, skip verbose r ≠ '?' :: rest := fun rest heq => hmark ⟨rest, heq⟩
    have hplain' : ∀ rest, skip verbose r' ≠ '?' :: rest := by
      intro rest heq
      rw [heq] at hskip
      obtain ⟨rest, hrest, -⟩ := hskip.cons_of_ne (by decide)
      exact hplain rest hrest
    rw [opening?_plain hplain, opening?_plain hplain']
    exact .read _ hskip

end TableLexer.Regex
