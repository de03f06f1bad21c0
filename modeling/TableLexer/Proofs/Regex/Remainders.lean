import Mathlib.Tactic.SplitIfs
import TableLexer.Regex.Lexis

/-!
# What the readers of a source leave

Every reader leaves a suffix of the text it was given. The readers with several parts are taken
apart first, so that later proofs meet one choice at a time.
-/
namespace TableLexer.Regex

variable {verbose : Bool} {c : Char} {cs rest t : List Char}

theorem skipFiller_suffix (inComment : Bool) (cs : List Char) :
    skipFiller inComment cs <:+ cs := by
  induction cs generalizing inComment with
  | nil => exact List.suffix_rfl
  | cons c cs ih =>
    rw [skipFiller]
    split_ifs
    · exact (ih _).trans (List.suffix_cons c cs)
    · exact (ih _).trans (List.suffix_cons c cs)
    · exact (ih _).trans (List.suffix_cons c cs)
    · exact List.suffix_rfl

theorem skip_suffix (verbose : Bool) (cs : List Char) : skip verbose cs <:+ cs := by
  cases verbose with
  | false => exact List.suffix_rfl
  | true => exact skipFiller_suffix false cs

/-- What is left of the text behind its first visible character. -/
theorem suffix_of_skip (h : skip verbose cs = c :: rest) (ht : t <:+ rest) :
    t <:+ cs ∧ t.length < cs.length := by
  have hskip := skip_suffix verbose cs
  rw [h] at hskip
  have hlt := hskip.length_le
  have hle := ht.length_le
  rw [List.length_cons] at hlt
  exact ⟨ht.trans ((List.suffix_cons c rest).trans hskip), by omega⟩

theorem skip_of_visible (hblank : Text.isBlank c = false) (hhash : c ≠ '#') :
    skip verbose (c :: cs) = c :: cs := by
  cases verbose with
  | false => rfl
  | true => simp [skip, skipFiller, hblank, hhash]

@[simp] theorem takeRun_nil (p : Char → Bool) (n : Nat) : takeRun verbose p n [] = ([], []) := by
  cases n <;> rfl

theorem takeRun_stops {p : Char → Bool} (hc : p c = false) (n : Nat) (cs : List Char) :
    takeRun verbose p n (c :: cs) = ([], c :: cs) := by
  cases n with
  | zero => rfl
  | succ n => simp [takeRun, hc]

theorem takeRun_suffix (verbose : Bool) (p : Char → Bool) (n : Nat) (cs : List Char) :
    (takeRun verbose p n cs).2 <:+ cs := by
  induction n generalizing cs with
  | zero => exact List.suffix_rfl
  | succ n ih =>
    cases cs with
    | nil => exact List.suffix_rfl
    | cons c cs =>
      rw [takeRun]
      split
      · exact ((ih _).trans (skip_suffix verbose cs)).trans (List.suffix_cons c cs)
      · exact List.suffix_rfl

theorem decimal?_suffix (verbose : Bool) (cs : List Char) : (decimal? verbose cs).2 <:+ cs := by
  have hrun := takeRun_suffix verbose Text.isAsciiDigit cs.length
    (cs.dropWhile Text.isBlank)
  exact ((List.dropWhile_suffix _).trans hrun).trans (List.dropWhile_suffix _)

def upperBound? (verbose : Bool) (least : Nat) (cs : List Char) :
    Option ((Nat × Option Nat) × List Char) :=
  match cs with
  | '}' :: rest => some ((least, none), rest)
  | rest =>
    match decimal? verbose rest with
    | (some most, '}' :: rest) => if least ≤ most then some ((least, some most), rest) else none
    | _ => none

theorem counts?_eq (verbose : Bool) (cs : List Char) :
    counts? verbose cs =
      match decimal? verbose (skip verbose cs) with
      | (some least, '}' :: rest) => some ((least, some least), rest)
      | (some least, ',' :: rest) => upperBound? verbose least (skip verbose rest)
      | _ => none := rfl

theorem upperBound?_eq (least : Nat) (h : ∀ rest, cs ≠ '}' :: rest) :
    upperBound? verbose least cs =
      match decimal? verbose cs with
      | (some most, '}' :: rest) => if least ≤ most then some ((least, some most), rest) else none
      | _ => none := by
  unfold upperBound?
  split
  · next rest => exact absurd rfl (h rest)
  · rfl

theorem upperBound?_suffix {least : Nat} {x : Nat × Option Nat}
    (h : upperBound? verbose least cs = some (x, t)) : t <:+ cs := by
  by_cases hclose : ∃ rest, cs = '}' :: rest
  · obtain ⟨rest, rfl⟩ := hclose
    cases h
    exact List.suffix_cons _ _
  · rw [upperBound?_eq least fun rest heq => hclose ⟨rest, heq⟩] at h
    have hsuffix := decimal?_suffix verbose cs
    split at h
    · next heq =>
      rw [heq] at hsuffix
      split at h
      · cases h
        exact (List.suffix_cons _ _).trans hsuffix
      · cases h
    · cases h

theorem counts?_suffix {x : Nat × Option Nat} (h : counts? verbose cs = some (x, t)) :
    t <:+ cs := by
  rw [counts?_eq] at h
  have hsuffix := (decimal?_suffix verbose _).trans (skip_suffix verbose cs)
  split at h
  · next heq =>
    rw [heq] at hsuffix
    cases h
    exact (List.suffix_cons _ _).trans hsuffix
  · next rest heq =>
    rw [heq] at hsuffix
    have hbound := (upperBound?_suffix h).trans (skip_suffix verbose rest)
    exact (hbound.trans (List.suffix_cons _ _)).trans hsuffix
  · cases h

theorem hexDigits?_suffix {n : Nat} {digits : List Char}
    (h : hexDigits? verbose n cs = some (digits, t)) : t <:+ cs := by
  induction n generalizing cs digits with
  | zero =>
    cases h
    exact List.suffix_rfl
  | succ n ih =>
    cases cs with
    | nil => cases h
    | cons c cs =>
      rw [hexDigits?] at h
      split at h
      · obtain ⟨⟨digits, rest⟩, hrest, heq⟩ := Option.map_eq_some_iff.mp h
        cases heq
        exact ((ih hrest).trans (skip_suffix verbose cs)).trans (List.suffix_cons c cs)
      · cases h

theorem codePoint?_braced (width : Nat) (h : skip verbose cs = '{' :: rest) :
    codePoint? verbose width cs =
      match takeRun verbose isHex rest.length (skip verbose rest) with
      | (digits, '}' :: after) =>
        if digits.isEmpty then none
        else (scalar? (ofHex digits)).map fun c => ((c, false), skip verbose after)
      | _ => none := by
  rw [codePoint?, h]
  rfl

theorem codePoint?_bare (width : Nat) (h : ∀ rest, skip verbose cs ≠ '{' :: rest) :
    codePoint? verbose width cs = (hexDigits? verbose width (skip verbose cs)).bind
      fun (digits, rest) => ((scalar? (ofHex digits)).map (·, width == 2)).map (·, rest) := by
  unfold codePoint?
  split
  · next rest heq => exact absurd heq (h rest)
  · cases hexDigits? verbose width (skip verbose cs) with
    | none => rfl
    | some x => simp [Function.comp_def]

theorem codePoint?_suffix {width : Nat} {x : Char × Bool}
    (h : codePoint? verbose width cs = some (x, t)) : t <:+ cs := by
  have hskip := skip_suffix verbose cs
  by_cases hbrace : ∃ rest, skip verbose cs = '{' :: rest
  · obtain ⟨rest, hrest⟩ := hbrace
    rw [codePoint?_braced width hrest] at h
    rw [hrest] at hskip
    have hrun := takeRun_suffix verbose isHex rest.length (skip verbose rest)
    split at h
    · next digits after heq =>
      rw [heq] at hrun
      split at h
      · cases h
      · obtain ⟨c, -, heq⟩ := Option.map_eq_some_iff.mp h
        cases heq
        have hafter := (skip_suffix verbose after).trans ((List.suffix_cons '}' after).trans hrun)
        exact ((hafter.trans (skip_suffix verbose rest)).trans (List.suffix_cons _ _)).trans hskip
    · cases h
  · rw [codePoint?_bare width fun rest heq => hbrace ⟨rest, heq⟩] at h
    obtain ⟨⟨digits, rest⟩, hdigits, h⟩ := Option.bind_eq_some_iff.mp h
    obtain ⟨y, -, heq⟩ := Option.map_eq_some_iff.mp h
    cases heq
    exact (hexDigits?_suffix hdigits).trans hskip

def namesBoundary (c : Char) : Bool := Text.isAsciiLetter c || c == '-'

theorem wordBoundary?_braced (rest : List Char) :
    wordBoundary? verbose ('{' :: rest) =
      match skip verbose rest with
      | [] => none
      | c :: _ =>
        if namesBoundary c then
          match takeRun verbose namesBoundary rest.length (skip verbose rest) with
          | (name, '}' :: after) => (wordAssertion? (String.ofList name)).map (·, after)
          | _ => none
        else some (.wordBoundary, '{' :: rest) := rfl

theorem wordBoundary?_bare (h : ∀ rest, cs ≠ '{' :: rest) :
    wordBoundary? verbose cs = some (.wordBoundary, cs) := by
  unfold wordBoundary?
  split
  · next rest => exact absurd rfl (h rest)
  · rfl

theorem wordBoundary?_suffix {a : Assertion} (h : wordBoundary? verbose cs = some (a, t)) :
    t <:+ cs := by
  by_cases hbrace : ∃ rest, cs = '{' :: rest
  · obtain ⟨rest, rfl⟩ := hbrace
    rw [wordBoundary?_braced] at h
    have hrun := takeRun_suffix verbose namesBoundary rest.length (skip verbose rest)
    split at h
    · cases h
    · split at h
      · split at h
        · next name after heq =>
          rw [heq] at hrun
          obtain ⟨a, -, heq⟩ := Option.map_eq_some_iff.mp h
          cases heq
          have hafter := (List.suffix_cons '}' _).trans hrun
          exact (hafter.trans (skip_suffix verbose rest)).trans (List.suffix_cons _ _)
        · cases h
      · cases h
        exact List.suffix_rfl
  · rw [wordBoundary?_bare fun rest heq => hbrace ⟨rest, heq⟩] at h
    cases h
    exact List.suffix_rfl

theorem bracedName?_suffix {n : Nat} {name : List Char}
    (h : bracedName? verbose n cs = some (name, t)) : t <:+ cs := by
  induction n generalizing cs name with
  | zero => simp [bracedName?] at h
  | succ n ih =>
    cases cs with
    | nil => cases h
    | cons c cs =>
      rw [bracedName?] at h
      split at h
      · cases h
        exact List.suffix_cons c _
      · obtain ⟨⟨name, rest⟩, hrest, heq⟩ := Option.map_eq_some_iff.mp h
        cases heq
        exact ((ih hrest).trans (skip_suffix verbose cs)).trans (List.suffix_cons c cs)

theorem propertyName?_braced (h : skip verbose cs = '{' :: rest) :
    propertyName? verbose cs = bracedName? verbose (rest.length + 1) (skip verbose rest) := by
  rw [propertyName?, h]
  rfl

theorem propertyName?_letter (hbrace : c ≠ '{') (hslash : c ≠ '\\')
    (h : skip verbose cs = c :: rest) :
    propertyName? verbose cs = some ([c], rest) := by
  rw [propertyName?, h]
  split <;> simp_all

theorem propertyName?_suffix {name : List Char} (h : propertyName? verbose cs = some (name, t)) :
    t <:+ cs := by
  have hskip := skip_suffix verbose cs
  unfold propertyName? at h
  split at h
  · cases h
  · cases h
  · next rest heq =>
    rw [heq] at hskip
    have hname := (bracedName?_suffix h).trans (skip_suffix verbose rest)
    exact (hname.trans (List.suffix_cons '{' rest)).trans hskip
  · next c rest _ _ heq =>
    rw [heq] at hskip
    cases h
    exact (List.suffix_cons c _).trans hskip

/-- An escape that is complete with its letter does not depend on what follows. -/
theorem escape?_letter (hp : c ≠ 'p') (hP : c ≠ 'P') (hx : c ≠ 'x') (hu : c ≠ 'u') (hU : c ≠ 'U')
    (hb : c ≠ 'b') (rest : List Char) :
    escape? verbose (c :: rest) = (escape? verbose [c]).map fun (a, _) => (a, rest) := by
  unfold escape?
  dsimp only
  split <;> simp_all

theorem escape?_cases (verbose : Bool) (c : Char) :
    (∃ negated, ∀ rest, escape? verbose (c :: rest) =
      (propertyName? verbose rest).map fun (name, rest) => (.property name negated, rest)) ∨
    (∃ width, ∀ rest, escape? verbose (c :: rest) =
      (codePoint? verbose width rest).map fun (x, rest) => (.literal x.1 x.2, rest)) ∨
    (∀ rest, escape? verbose (c :: rest) =
      (wordBoundary? verbose rest).map fun (a, rest) => (.assertion a, rest)) ∨
    ∀ rest, escape? verbose (c :: rest) = (escape? verbose [c]).map fun (a, _) => (a, rest) := by
  by_cases hp : c = 'p'
  · subst hp
    exact .inl ⟨false, fun _ => rfl⟩
  by_cases hP : c = 'P'
  · subst hP
    exact .inl ⟨true, fun _ => rfl⟩
  by_cases hx : c = 'x'
  · subst hx
    exact .inr (.inl ⟨2, fun _ => rfl⟩)
  by_cases hu : c = 'u'
  · subst hu
    exact .inr (.inl ⟨4, fun _ => rfl⟩)
  by_cases hU : c = 'U'
  · subst hU
    exact .inr (.inl ⟨8, fun _ => rfl⟩)
  by_cases hb : c = 'b'
  · subst hb
    exact .inr (.inr (.inl fun _ => rfl))
  exact .inr (.inr (.inr (escape?_letter hp hP hx hu hU hb)))

theorem escape?_suffix {a : Ast} (h : escape? verbose cs = some (a, t)) : t <:+ cs := by
  cases cs with
  | nil => cases h
  | cons c cs =>
    refine List.IsSuffix.trans ?_ (List.suffix_cons c cs)
    rcases escape?_cases verbose c with ⟨negated, hnamed⟩ | ⟨width, hcoded⟩ | hboundary | hletter
    · rw [hnamed] at h
      obtain ⟨⟨name, rest⟩, hname, heq⟩ := Option.map_eq_some_iff.mp h
      cases heq
      exact propertyName?_suffix hname
    · rw [hcoded] at h
      obtain ⟨⟨x, rest⟩, hx, heq⟩ := Option.map_eq_some_iff.mp h
      cases heq
      exact codePoint?_suffix hx
    · rw [hboundary] at h
      obtain ⟨⟨x, rest⟩, hx, heq⟩ := Option.map_eq_some_iff.mp h
      cases heq
      exact wordBoundary?_suffix hx
    · rw [hletter] at h
      obtain ⟨x, -, heq⟩ := Option.map_eq_some_iff.mp h
      cases heq
      exact List.suffix_rfl

theorem groupName?_suffix {name : List Char} (h : groupName? cs = some (name, t)) : t <:+ cs := by
  unfold groupName? at h
  have hsuffix := List.dropWhile_suffix (· != '>') (l := cs)
  dsimp only at h
  split at h
  · next rest heq =>
    rw [heq] at hsuffix
    split at h
    · cases h
      exact (List.suffix_cons _ _).trans hsuffix
    · cases h
  · cases h

theorem flagChange?_suffix {negated dangling : Bool} {seen : FlagChange} {x : FlagChange × Bool}
    (h : flagChange? negated dangling seen cs = some (x, t)) : t <:+ cs := by
  induction cs generalizing negated dangling seen with
  | nil => cases h
  | cons c cs ih =>
    refine List.IsSuffix.trans ?_ (List.suffix_cons c cs)
    rw [flagChange?] at h
    split_ifs at h
    · cases h
      exact List.suffix_rfl
    · exact ih h
    · cases hflag : flag? c with
      | none => simp [hflag] at h
      | some f =>
        simp only [hflag] at h
        split_ifs at h
        exact ih h

/-- What a change of flags begins, by the colon or the parenthesis behind it. -/
def Opening.ofFlags? (x : FlagChange × Bool) : Option Opening :=
  if x.2 then some (.group x.1 none) else if x.1.isEmpty then none else some (.flags x.1)

def flagGroup? (cs : List Char) : Option (Opening × List Char) :=
  (flagChange? false false [] cs).bind fun (x, rest) => (Opening.ofFlags? x).map (·, rest)

def namedGroup? (cs : List Char) : Option (Opening × List Char) :=
  (groupName? cs).map fun (n, rest) => (.group [] (some n), rest)

def markedGroup? (cs : List Char) : Option (Opening × List Char) :=
  match cs with
  | '=' :: _ | '!' :: _ | '<' :: '=' :: _ | '<' :: '!' :: _ => none
  | 'P' :: '<' :: rest => namedGroup? rest
  | '<' :: rest => namedGroup? rest
  | rest => flagGroup? rest

/-- Where neither a name nor a look-around begins, the marked group is one of flags. -/
theorem markedGroup?_flags (hequals : c ≠ '=') (hbang : c ≠ '!') (hangle : c ≠ '<')
    (hname : c = 'P' → ∀ rest, cs ≠ '<' :: rest) :
    markedGroup? (c :: cs) = flagGroup? (c :: cs) := by
  unfold markedGroup?
  split <;> simp_all

theorem markedGroup?_angle (hahead : c ≠ '=') (hnot : c ≠ '!') :
    markedGroup? ('<' :: c :: cs) = namedGroup? (c :: cs) := by
  unfold markedGroup?
  split <;> simp_all

theorem namedGroup?_suffix {o : Opening} (h : namedGroup? cs = some (o, t)) : t <:+ cs := by
  obtain ⟨⟨name, after⟩, hname, heq⟩ := Option.map_eq_some_iff.mp h
  cases heq
  exact groupName?_suffix hname

theorem flagGroup?_eq (cs : List Char) :
    flagGroup? cs =
      match flagChange? false false [] cs with
      | some ((change, true), rest) => some (.group change none, rest)
      | some ((change, false), rest) =>
        if change.isEmpty then none else some (.flags change, rest)
      | none => none := by
  unfold flagGroup?
  rcases flagChange? false false [] cs with _ | ⟨⟨change, _ | _⟩, rest⟩
  · rfl
  · cases change <;> rfl
  · rfl

theorem opening?_marked (h : skip verbose cs = '?' :: rest) :
    opening? verbose cs = markedGroup? rest := by
  unfold opening? markedGroup? namedGroup?
  rw [h]
  split
  · simp_all
  · simp_all
  · simp_all
  · simp_all
  · simp_all
  · simp_all
  · next hmark =>
    cases hmark
    refine (flagGroup?_eq rest).symm.trans ?_
    split <;> simp_all
  · next hother => exact absurd rfl (hother rest)

theorem opening?_plain (h : ∀ rest, skip verbose cs ≠ '?' :: rest) :
    opening? verbose cs = some (.group [] none, skip verbose cs) := by
  unfold opening?
  split <;> simp_all

theorem opening?_suffix {o : Opening} (h : opening? verbose cs = some (o, t)) : t <:+ cs := by
  have hskip := skip_suffix verbose cs
  by_cases hmark : ∃ rest, skip verbose cs = '?' :: rest
  · obtain ⟨rest, hrest⟩ := hmark
    rw [opening?_marked hrest] at h
    rw [hrest] at hskip
    refine List.IsSuffix.trans ?_ hskip
    refine List.IsSuffix.trans ?_ (List.suffix_cons '?' rest)
    unfold markedGroup? at h
    split at h
    · cases h
    · cases h
    · cases h
    · cases h
    · next rest =>
      have hangle := (List.suffix_cons '<' rest).trans (List.suffix_cons 'P' _)
      exact (namedGroup?_suffix h).trans hangle
    · exact (namedGroup?_suffix h).trans (List.suffix_cons _ _)
    · obtain ⟨⟨x, after⟩, hflags, h⟩ := Option.bind_eq_some_iff.mp h
      obtain ⟨o, -, heq⟩ := Option.map_eq_some_iff.mp h
      cases heq
      exact flagChange?_suffix hflags
  · rw [opening?_plain fun rest heq => hmark ⟨rest, heq⟩] at h
    cases h
    exact hskip

end TableLexer.Regex
