import TableLexer.Proofs.Regex.Seams
import TableLexer.Regex.Parser

/-!
# Bracketed classes with a closing parenthesis behind them

The reading of a class is a derivation of single turns, so that nothing about it depends on the
bound of the reader. A class ends at a bracket of its own: a parenthesis behind the source changes
neither whether the class is read nor what it contains.
-/
namespace TableLexer.Regex

variable {H : Prop} {verbose : Bool} {p : ClassProgress} {cs r r' t t' : List Char}
  {members : ClassSet}

def className? (negated : Bool) (cs : List Char) : Option (ClassSet × List Char) :=
  match cs.dropWhile (· != ':') with
  | ':' :: ']' :: after =>
    (asciiClass? (String.ofList (cs.takeWhile (· != ':')))).map fun c => (.ascii c negated, after)
  | _ => none

theorem namedClass?_colon (cs : List Char) :
    namedClass? (':' :: cs) = className? (cs.head? == some '^')
      (if cs.head? == some '^' then cs.tail else cs) := rfl

theorem namedClass?_other (h : ∀ rest, cs ≠ ':' :: rest) : namedClass? cs = none := by
  unfold namedClass?
  split
  · next rest => exact absurd rfl (h rest)
  · rfl

theorem className?_suffix {negated : Bool} {x : ClassSet}
    (h : className? negated cs = some (x, t)) : t <:+ cs := by
  have hsuffix := List.dropWhile_suffix (· != ':') (l := cs)
  unfold className? at h
  split at h
  · next after heq =>
    rw [heq] at hsuffix
    obtain ⟨c, -, heq⟩ := Option.map_eq_some_iff.mp h
    cases heq
    exact ((List.suffix_cons ']' _).trans (List.suffix_cons ':' _)).trans hsuffix
  · cases h

theorem namedClass?_suffix {x : ClassSet} (h : namedClass? cs = some (x, t)) : t <:+ cs := by
  unfold namedClass? at h
  split at h
  · next rest =>
    have h := className?_suffix ((namedClass?_colon rest).symm.trans h)
    refine h.trans (List.IsSuffix.trans ?_ (List.suffix_cons ':' rest))
    split_ifs
    · exact List.tail_suffix rest
    · exact List.suffix_rfl
  · cases h

def classNegated (verbose : Bool) (cs : List Char) : Bool := (skip verbose cs).head? == some '^'

def classStart (verbose : Bool) (cs : List Char) : List Char :=
  if classNegated verbose cs then skip verbose (skip verbose cs).tail else skip verbose cs

def firstItems (verbose : Bool) (cs : List Char) : List ClassSet × List Char :=
  match takeRun verbose (· == '-') cs.length cs with
  | ([], ']' :: rest) => ([.char ']'], skip verbose rest)
  | (hyphens, rest) => (hyphens.map .char, rest)

theorem classOpening_eq (verbose : Bool) (cs : List Char) :
    classOpening verbose cs =
      (classNegated verbose cs, firstItems verbose (classStart verbose cs)) := by
  unfold classOpening firstItems classStart classNegated
  dsimp only
  generalize (if (skip verbose cs).head? == some '^' then _ else _ : List Char) = start
  generalize takeRun verbose (· == '-') _ start = d
  obtain ⟨hyphens, rest⟩ := d
  split <;> simp_all

theorem classStart_suffix (verbose : Bool) (cs : List Char) : classStart verbose cs <:+ cs := by
  have hskip := skip_suffix verbose cs
  unfold classStart
  split
  · exact ((skip_suffix verbose _).trans (List.tail_suffix _)).trans hskip
  · exact hskip

theorem firstItems_suffix (verbose : Bool) (cs : List Char) : (firstItems verbose cs).2 <:+ cs := by
  have hrun := takeRun_suffix verbose (· == '-') cs.length cs
  unfold firstItems
  split
  · next rest heq =>
    rw [heq] at hrun
    exact ((skip_suffix verbose rest).trans (List.suffix_cons ']' rest)).trans hrun
  · next heq =>
    rw [heq] at hrun
    exact hrun

theorem classAtom?_suffix {c : Char} {a : Ast} (h : classAtom? verbose (c :: cs) = some (a, t)) :
    t <:+ cs := by
  unfold classAtom? at h
  split at h
  · next heq => cases heq
  · next heq =>
    cases heq
    exact escape?_suffix h
  · next heq =>
    cases heq
    cases h
    exact List.suffix_rfl

def ClassSet.ofBounds? : Ast → Ast → Option ClassSet
  | .literal a _, .literal b _ => if a ≤ b then some (.range a b) else none
  | _, _ => none

def hyphenStands (verbose : Bool) (cs : List Char) : Bool :=
  peekPast verbose cs == some ']' || peekPast verbose cs == some '-'

/-- What a first member makes of the text behind it: a member of its own or the start of a
range. -/
def classMember? (verbose : Bool) (first : Ast) (cs : List Char) :
    Option (ClassSet × List Char) :=
  match cs with
  | [] => none
  | '-' :: rest =>
    if hyphenStands verbose rest then (classItem? first).map (·, '-' :: rest)
    else (classAtom? verbose (skip verbose rest)).bind fun (last, after) =>
      (ClassSet.ofBounds? first last).map (·, after)
  | rest => (classItem? first).map (·, rest)

theorem classMember?_hyphen (first : Ast) (rest : List Char) :
    classMember? verbose first ('-' :: rest) =
      if hyphenStands verbose rest then (classItem? first).map (·, '-' :: rest)
      else (classAtom? verbose (skip verbose rest)).bind fun (last, after) =>
        (ClassSet.ofBounds? first last).map (·, after) := rfl

theorem classMember?_other {first : Ast} (hnil : cs ≠ []) (h : ∀ rest, cs ≠ '-' :: rest) :
    classMember? verbose first cs = (classItem? first).map (·, cs) := by
  unfold classMember?
  split
  · exact absurd rfl hnil
  · next rest => exact absurd rfl (h rest)
  · rfl

theorem classRange?_eq (verbose : Bool) (cs : List Char) :
    classRange? verbose cs = (classAtom? verbose cs).bind fun (first, rest) =>
      classMember? verbose first (skip verbose rest) := by
  unfold classRange?
  rcases classAtom? verbose cs with _ | ⟨first, rest⟩
  · rfl
  · simp only [Option.bind_some]
    generalize skip verbose rest = u
    split
    · rfl
    · next w =>
      rw [classMember?_hyphen]
      by_cases hstands : hyphenStands verbose w
      · rw [if_pos hstands]
        exact if_pos hstands
      · rw [if_neg hstands]
        refine (if_neg hstands).trans ?_
        rcases classAtom? verbose (skip verbose w) with _ | ⟨last, after⟩
        · split <;> simp_all
        · simp only [Option.bind_some]
          unfold ClassSet.ofBounds?
          split
          · next heq =>
            cases heq
            dsimp only
            split <;> rfl
          · next hno =>
            split
            · next a pair b pair' => exact (hno a pair b pair' after rfl rfl).elim
            · rfl
    · next hnil hother => exact (classMember?_other hnil hother).symm

theorem classMember?_suffix {first : Ast} {x : ClassSet}
    (h : classMember? verbose first cs = some (x, t)) : t <:+ cs := by
  unfold classMember? at h
  split at h
  · cases h
  · next rest =>
    split at h
    · obtain ⟨y, -, heq⟩ := Option.map_eq_some_iff.mp h
      cases heq
      exact List.suffix_rfl
    · obtain ⟨⟨last, after⟩, hlast, h⟩ := Option.bind_eq_some_iff.mp h
      obtain ⟨y, -, heq⟩ := Option.map_eq_some_iff.mp h
      cases heq
      have hskip := skip_suffix verbose rest
      refine List.IsSuffix.trans ?_ (hskip.trans (List.suffix_cons '-' rest))
      cases hrest : skip verbose rest with
      | nil =>
        rw [hrest] at hlast
        cases hlast
      | cons c u =>
        rw [hrest] at hlast
        exact (classAtom?_suffix hlast).trans (List.suffix_cons c u)
  · obtain ⟨y, -, heq⟩ := Option.map_eq_some_iff.mp h
    cases heq
    exact List.suffix_rfl

theorem classRange?_suffix {c : Char} {x : ClassSet}
    (h : classRange? verbose (c :: cs) = some (x, t)) : t <:+ cs := by
  rw [classRange?_eq] at h
  obtain ⟨⟨first, rest⟩, hfirst, h⟩ := Option.bind_eq_some_iff.mp h
  exact ((classMember?_suffix h).trans (skip_suffix verbose rest)).trans (classAtom?_suffix hfirst)

inductive ClassTurn where
  | close
  | go (p : ClassProgress)
  | enter (negated : Bool) (items : List ClassSet)

def SetOp.ofChars? : Char → Char → Option SetOp
  | '&', '&' => some .inter
  | '-', '-' => some .diff
  | '~', '~' => some .symDiff
  | _, _ => none

def setOperator? : List Char → Option (SetOp × List Char)
  | c :: d :: rest => (SetOp.ofChars? c d).map (·, rest)
  | _ => none

theorem setOperator?_pair (c d : Char) (rest : List Char) :
    setOperator? (c :: d :: rest) = (SetOp.ofChars? c d).map (·, rest) := rfl

def nestedTurn (verbose : Bool) (p : ClassProgress) (cs : List Char) : ClassTurn × List Char :=
  match namedClass? cs with
  | some (item, rest) => (.go (p.push item), rest)
  | none =>
    (.enter (classNegated verbose cs) (firstItems verbose (classStart verbose cs)).1,
      (firstItems verbose (classStart verbose cs)).2)

def classTurn? (verbose : Bool) (p : ClassProgress) (cs : List Char) :
    Option (ClassTurn × List Char) :=
  match setOperator? (skip verbose cs) with
  | some (o, rest) => some (.go (p.operator o), rest)
  | none =>
    match skip verbose cs with
    | ']' :: rest => some (.close, rest)
    | '[' :: rest => some (nestedTurn verbose p rest)
    | cs => (classRange? verbose cs).map fun (item, rest) => (.go (p.push item), rest)

theorem setOperator?_suffix {c : Char} {o : SetOp} (h : setOperator? (c :: cs) = some (o, t)) :
    t <:+ cs := by
  cases cs with
  | nil => cases h
  | cons d cs =>
    obtain ⟨o, -, heq⟩ := Option.map_eq_some_iff.mp h
    cases heq
    exact List.suffix_cons d t

theorem nestedTurn_suffix (verbose : Bool) (p : ClassProgress) (cs : List Char) :
    (nestedTurn verbose p cs).2 <:+ cs := by
  unfold nestedTurn
  split
  · next hnamed => exact namedClass?_suffix hnamed
  · exact (firstItems_suffix verbose _).trans (classStart_suffix verbose cs)

theorem classBody?_succ (n : Nat) (p : ClassProgress) (cs : List Char) :
    classBody? verbose (n + 1) p cs =
      match classTurn? verbose p cs with
      | none => none
      | some (.close, rest) => some (p.close, rest)
      | some (.go p, rest) => classBody? verbose n p rest
      | some (.enter negated items, rest) =>
        match classBody? verbose n ⟨none, items.reverse⟩ rest with
        | some (members, rest) => classBody? verbose n (p.push (.bracket negated members)) rest
        | none => none := by
  rw [classBody?]
  unfold classTurn?
  generalize skip verbose cs = u
  split
  · rfl
  · next rest =>
    have hop : setOperator? (']' :: rest) = none := by cases rest <;> rfl
    simp only [hop]
  · rfl
  · rfl
  · rfl
  · next rest =>
    have hop : setOperator? ('[' :: rest) = none := by cases rest <;> rfl
    simp only [hop, nestedTurn, classOpening_eq]
    cases namedClass? rest with
    | none => rfl
    | some x => rfl
  · have hop : setOperator? u = none := by
      unfold setOperator?
      split
      · unfold SetOp.ofChars?
        split <;> simp_all
      · rfl
    simp only [hop]
    cases hitem : classRange? verbose u with
    | none => split <;> simp_all
    | some x => split <;> simp_all

/-- A turn takes a character. -/
theorem classTurn?_suffix {x : ClassTurn} (h : classTurn? verbose p cs = some (x, t)) :
    t <:+ cs ∧ t.length < cs.length := by
  unfold classTurn? at h
  cases hcs : skip verbose cs with
  | nil =>
    rw [hcs] at h
    cases h
  | cons c rest =>
    rw [hcs] at h
    refine suffix_of_skip hcs ?_
    split at h
    · next hop =>
      cases h
      exact setOperator?_suffix hop
    · split at h
      · next heq =>
        cases heq
        cases h
        exact List.suffix_rfl
      · next heq =>
        cases heq
        have hsuffix := nestedTurn_suffix verbose p rest
        rw [Option.some.inj h] at hsuffix
        exact hsuffix
      · obtain ⟨⟨item, after⟩, hitem, heq⟩ := Option.map_eq_some_iff.mp h
        cases heq
        exact classRange?_suffix hitem

theorem classTurn?_close (h : classTurn? verbose p cs = some (.close, t)) :
    skip verbose cs = ']' :: t := by
  unfold classTurn? at h
  split at h
  · cases h
  · split at h
    · next heq =>
      cases h
      exact heq
    · unfold nestedTurn at h
      split at h
      · cases h
      · cases h
    · obtain ⟨x, -, heq⟩ := Option.map_eq_some_iff.mp h
      cases heq

/-- A class is read in turns up to its closing bracket. -/
inductive ParsesClass (verbose : Bool) :
    ClassProgress → List Char → ClassSet → List Char → Prop
  | close {p : ClassProgress} {cs t : List Char}
    (h : classTurn? verbose p cs = some (.close, t)) : ParsesClass verbose p cs p.close t
  | go {p q : ClassProgress} {cs t u : List Char} {members : ClassSet}
    (h : classTurn? verbose p cs = some (.go q, t)) (rest : ParsesClass verbose q t members u) :
    ParsesClass verbose p cs members u
  | enter {p : ClassProgress} {cs t u w : List Char} {negated : Bool} {items : List ClassSet}
    {inner members : ClassSet}
    (h : classTurn? verbose p cs = some (.enter negated items, t))
    (nested : ParsesClass verbose ⟨none, items.reverse⟩ t inner u)
    (rest : ParsesClass verbose (p.push (.bracket negated inner)) u members w) :
    ParsesClass verbose p cs members w

namespace ParsesClass

theorem suffix (h : ParsesClass verbose p cs members t) : t <:+ cs := by
  induction h with
  | close h => exact (classTurn?_suffix h).1
  | go h _ ih => exact ih.trans (classTurn?_suffix h).1
  | enter h _ _ ihn ih => exact (ih.trans ihn).trans (classTurn?_suffix h).1

/-- No class without a closing bracket. -/
theorem bracket_mem (h : ParsesClass verbose p cs members t) : ']' ∈ cs := by
  induction h with
  | close h =>
    refine (skip_suffix verbose _).mem ?_
    rw [classTurn?_close h]
    exact List.mem_cons_self
  | go h _ ih => exact (classTurn?_suffix h).1.mem ih
  | enter h _ _ ihn _ => exact (classTurn?_suffix h).1.mem ihn

theorem of_classBody? {n : Nat} (h : classBody? verbose n p cs = some (members, t)) :
    ParsesClass verbose p cs members t := by
  induction n generalizing p cs members t with
  | zero => cases h
  | succ n ih =>
    rw [classBody?_succ] at h
    split at h
    · cases h
    · next hturn =>
      cases h
      exact .close hturn
    · next hturn => exact .go hturn (ih h)
    · next hturn =>
      split at h
      · next hinner => exact .enter hturn (ih hinner) (ih h)
      · cases h

theorem classBody?_eq (h : ParsesClass verbose p cs members t) {n : Nat}
    (hn : cs.length < n) : classBody? verbose n p cs = some (members, t) := by
  induction h generalizing n with
  | close h =>
    obtain ⟨n, rfl⟩ := Nat.exists_eq_succ_of_ne_zero (Nat.ne_zero_of_lt hn)
    rw [classBody?_succ, h]
  | go h _ ih =>
    obtain ⟨n, rfl⟩ := Nat.exists_eq_succ_of_ne_zero (Nat.ne_zero_of_lt hn)
    have hlt := (classTurn?_suffix h).2
    rw [classBody?_succ, h]
    exact ih (by omega)
  | enter h nested _ ihn ih =>
    obtain ⟨n, rfl⟩ := Nat.exists_eq_succ_of_ne_zero (Nat.ne_zero_of_lt hn)
    have hlt := (classTurn?_suffix h).2
    have hle := nested.suffix.length_le
    rw [classBody?_succ, h]
    dsimp only
    rw [ihn (by omega)]
    exact ih (by omega)

end ParsesClass

theorem bracketed?_eq_some_iff {a : Ast} :
    bracketed? verbose cs = some (a, t) ↔
      ∃ members, a = .bracket (classNegated verbose cs) members ∧
        ParsesClass verbose ⟨none, (firstItems verbose (classStart verbose cs)).1.reverse⟩
          (firstItems verbose (classStart verbose cs)).2 members t := by
  have hsuffix := (firstItems_suffix verbose _).trans (classStart_suffix verbose cs)
  unfold bracketed?
  rw [classOpening_eq, Option.map_eq_some_iff]
  constructor
  · rintro ⟨⟨members, rest⟩, h, heq⟩
    cases heq
    exact ⟨members, rfl, .of_classBody? h⟩
  · rintro ⟨members, rfl, h⟩
    exact ⟨(members, t), h.classBody?_eq (Nat.lt_succ_of_le hsuffix.length_le), rfl⟩

theorem bracketed?_suffix {a : Ast} (h : bracketed? verbose cs = some (a, t)) : t <:+ cs := by
  obtain ⟨members, -, h⟩ := bracketed?_eq_some_iff.mp h
  exact h.suffix.trans ((firstItems_suffix verbose _).trans (classStart_suffix verbose cs))

theorem className?_follows {negated : Bool} (h : Seam H r r') :
    FollowsOn H (className? negated r) (className? negated r') := by
  unfold className?
  rcases h.upTo (p := (· != ':')) (by decide) with ⟨hnone, hnone'⟩ | ⟨hname, -, hend⟩
  · rw [hnone, hnone']
    exact .failed
  · rw [hname]
    generalize r.dropWhile (· != ':') = u at hend
    generalize r'.dropWhile (· != ':') = u' at hend
    split
    · obtain ⟨u', rfl, hbracket⟩ := hend.of_cons
      obtain ⟨after', rfl, hafter⟩ := hbracket.of_cons
      cases asciiClass? (String.ofList (r.takeWhile (· != ':'))) with
      | none => exact .failed
      | some c => exact .read _ hafter
    · next hother =>
      split
      · obtain ⟨rest, rfl, hrest⟩ := hend.cons_of_ne (by decide)
        obtain ⟨after, rfl, -⟩ := hrest.cons_of_ne (by decide)
        exact absurd rfl (hother after)
      · exact .failed

theorem Seam.head_eq (h : Seam H r r') {c : Char} (hc : c ≠ ')') :
    (r'.head? == some c) = (r.head? == some c) := by
  cases r with
  | nil =>
    rcases h.nil_cases with rfl | rfl
    · simpa using hc.symm
    · rfl
  | cons d r =>
    obtain ⟨r', rfl, -⟩ := h.of_cons
    rfl

theorem namedClass?_follows (h : Seam H r r') :
    FollowsOn H (namedClass? r) (namedClass? r') := by
  by_cases hcolon : ∃ rest, r = ':' :: rest
  · obtain ⟨rest, rfl⟩ := hcolon
    obtain ⟨rest', rfl, hseam⟩ := h.of_cons
    rw [namedClass?_colon, namedClass?_colon, hseam.head_eq (by decide)]
    split
    · next hnegated =>
      cases rest with
      | nil => cases hnegated
      | cons c rest =>
        obtain ⟨rest', rfl, hrest⟩ := hseam.of_cons
        exact className?_follows hrest
    · exact className?_follows hseam
  · have hother : ∀ rest, r ≠ ':' :: rest := fun rest heq => hcolon ⟨rest, heq⟩
    have hother' : ∀ rest, r' ≠ ':' :: rest := by
      rintro rest rfl
      obtain ⟨rest, rfl, -⟩ := h.cons_of_ne (by decide)
      exact hother rest rfl
    rw [namedClass?_other hother, namedClass?_other hother']
    exact .failed

theorem Seam.classStart (verbose : Bool) (h : Seam H r r') :
    Seam H (classStart verbose r) (classStart verbose r') := by
  have hskip := h.skip verbose
  unfold Regex.classStart classNegated
  rw [hskip.head_eq (by decide)]
  split
  · next hnegated =>
    cases hr : Regex.skip verbose r with
    | nil =>
      rw [hr] at hnegated
      cases hnegated
    | cons c rest =>
      rw [hr] at hskip
      obtain ⟨rest', hr', hrest⟩ := hskip.of_cons
      rw [hr']
      exact hrest.skip verbose
  · exact hskip

theorem Seam.firstItems (verbose : Bool) (h : Seam H r r') :
    Abreast H (firstItems verbose r) (firstItems verbose r') := by
  have hrun := h.takeRun verbose (p := (· == '-')) (by decide) (Nat.le_refl _) (Nat.le_refl _)
  unfold Regex.firstItems
  generalize Regex.takeRun verbose (· == '-') r.length r = d at hrun
  generalize Regex.takeRun verbose (· == '-') r'.length r' = d' at hrun
  obtain ⟨hyphens, hend⟩ := hrun
  split
  · next heq =>
    cases heq
    obtain ⟨rest', rfl, hrest⟩ := hend.of_cons
    exact .mk _ (hrest.skip verbose)
  · next hother heq =>
    cases heq
    split
    · next heq =>
      cases heq
      obtain ⟨rest, rfl, -⟩ := hend.cons_of_ne (by decide)
      exact (hother rest rfl rfl).elim
    · next heq =>
      cases heq
      exact .mk _ hend

/-- A look past filler meets the parenthesis instead only where it met neither a bracket nor a
hyphen. -/
theorem peekPast_behind (verbose : Bool) (cs : List Char) :
    peekPast verbose (cs ++ [')']) = peekPast verbose cs ∨
      peekPast verbose (cs ++ [')']) = some ')' ∧ peekPast verbose cs = cs.head? ∧
        cs.head? ≠ some ']' ∧ cs.head? ≠ some '-' := by
  have hend : ([')'] : List Char).dropWhile Text.isBlank = [')'] := by decide
  cases cs with
  | nil => cases verbose <;> exact .inr (by decide)
  | cons c cs =>
    cases verbose with
    | false => exact .inl rfl
    | true =>
      by_cases hbracket : c = ']'
      · subst hbracket
        exact .inl rfl
      by_cases hhyphen : c = '-'
      · subst hhyphen
        exact .inl rfl
      have hhead : (c :: cs).head? ≠ some ']' ∧ (c :: cs).head? ≠ some '-' := by
        simp [hbracket, hhyphen]
      unfold peekPast
      rw [if_pos rfl, if_pos rfl, List.dropWhile_append, hend]
      cases hd : (c :: cs).dropWhile Text.isBlank with
      | nil => exact .inr ⟨rfl, rfl, hhead⟩
      | cons d rest =>
        by_cases hhash : d = '#'
        · subst hhash
          simp only [List.isEmpty_cons, Bool.false_eq_true, ↓reduceIte, List.cons_append,
            List.dropWhile_append, hend]
          cases hrest : rest.dropWhile Text.isBlank with
          | nil => exact .inr ⟨rfl, rfl, hhead⟩
          | cons e rest => exact .inl rfl
        · refine .inl ?_
          simp only [List.isEmpty_cons, Bool.false_eq_true, ↓reduceIte, List.cons_append]

theorem Seam.hyphenStands (h : Seam H r r') :
    hyphenStands verbose r' = hyphenStands verbose r := by
  cases h with
  | swallowed _ => rfl
  | behind _ =>
    unfold Regex.hyphenStands
    rcases peekPast_behind verbose r with heq | ⟨hparen, hhead, hbracket, hhyphen⟩
    · rw [heq]
    · rw [hparen, hhead]
      simp [hbracket, hhyphen]

theorem classAtom?_follows (verbose : Bool) (h : Seam H r r') :
    Follows H (Spent verbose) (classAtom? verbose r) (classAtom? verbose r') := by
  cases r with
  | nil =>
    rcases h.nil_cases with rfl | rfl
    · exact .spent _ (.inl rfl)
    · exact .failed
  | cons c r =>
    obtain ⟨r', rfl, hrest⟩ := h.of_cons
    by_cases hescape : c = '\\'
    · subst hescape
      exact escape?_follows hrest
    · have hliteral (cs : List Char) :
          classAtom? verbose (c :: cs) = some (.literal c false, cs) := by
        unfold classAtom?
        split <;> simp_all
      rw [hliteral, hliteral]
      exact .read _ hrest

theorem rangeEnd_follows {first : Ast} (h : Seam H r r') :
    Follows H (fun _ t => ']' ∉ t)
      ((classAtom? verbose r).bind fun (last, t) => (ClassSet.ofBounds? first last).map (·, t))
      ((classAtom? verbose r').bind
        fun (last, t) => (ClassSet.ofBounds? first last).map (·, t)) := by
  refine (classAtom?_follows verbose h).filterMap (ClassSet.ofBounds? first) ?_
  rintro last t item (rfl | ⟨rfl, -⟩) hitem
  · exact List.not_mem_nil
  · cases first <;> cases hitem

/-- What only the parenthesis made readable has no closing bracket left. -/
theorem classMember?_follows {first : Ast} (h : Seam H r r') :
    Follows H (fun _ t => ']' ∉ t) (classMember? verbose first r)
      (classMember? verbose first r') := by
  cases r with
  | nil =>
    rcases h.nil_cases with rfl | rfl
    · unfold classMember?
      cases classItem? first with
      | none => exact .failed
      | some item => exact .spent item (by decide)
    · exact .failed
  | cons c r =>
    obtain ⟨r', rfl, hrest⟩ := h.of_cons
    by_cases hhyphen : c = '-'
    · subst hhyphen
      rw [classMember?_hyphen, classMember?_hyphen, hrest.hyphenStands]
      split
      · cases classItem? first with
        | none => exact .failed
        | some item => exact .read item h
      · exact rangeEnd_follows (hrest.skip verbose)
    · have hother (cs : List Char) : ∀ rest, c :: cs ≠ '-' :: rest :=
        fun rest heq => hhyphen (List.cons.inj heq).1
      rw [classMember?_other (List.cons_ne_nil _ _) (hother r),
        classMember?_other (List.cons_ne_nil _ _) (hother r')]
      cases classItem? first with
      | none => exact .failed
      | some item => exact .read item h

theorem Spent.no_member {first : Ast} (h : Spent verbose first t) :
    classMember? verbose first (skip verbose t) = none := by
  rcases h with rfl | ⟨rfl, rest, rfl, -⟩
  · cases verbose <;> rfl
  · rw [skip_of_visible (by decide) (by decide)]
    rfl

theorem classRange?_follows (h : Seam H r r') :
    Follows H (fun _ t => ']' ∉ t) (classRange? verbose r) (classRange? verbose r') := by
  have hatom := classAtom?_follows verbose h
  rw [classRange?_eq, classRange?_eq]
  generalize classAtom? verbose r = o at hatom
  generalize classAtom? verbose r' = o' at hatom
  cases hatom with
  | failed => exact .failed
  | read first hseam => exact classMember?_follows (hseam.skip verbose)
  | spent first hspent => simpa [hspent.no_member] using .failed

theorem setOperator?_follows (h : Seam H r r') :
    FollowsOn H (setOperator? r) (setOperator? r') := by
  cases r with
  | nil => rcases h.nil_cases with rfl | rfl <;> exact .failed
  | cons c r =>
    obtain ⟨r', rfl, hrest⟩ := h.of_cons
    cases r with
    | nil =>
      rcases hrest.nil_cases with rfl | rfl
      · have hnone : SetOp.ofChars? c ')' = none := by
          unfold SetOp.ofChars?
          split <;> simp_all
        simpa [setOperator?, hnone] using .failed
      · exact .failed
    | cons d r =>
      obtain ⟨r', rfl, hseam⟩ := hrest.of_cons
      rw [setOperator?_pair, setOperator?_pair]
      cases SetOp.ofChars? c d with
      | none => exact .failed
      | some o => exact .read o hseam

theorem nestedTurn_follows (verbose : Bool) (p : ClassProgress) (h : Seam H r r') :
    Abreast H (nestedTurn verbose p r) (nestedTurn verbose p r') := by
  have hnamed := namedClass?_follows h
  unfold nestedTurn
  generalize namedClass? r = o at hnamed
  generalize namedClass? r' = o' at hnamed
  cases hnamed with
  | read item hseam => exact .mk _ hseam
  | spent item hspent => cases hspent
  | failed =>
    have hitems := (h.classStart verbose).firstItems verbose
    have hskip := h.skip verbose
    have hnegated : classNegated verbose r' = classNegated verbose r := hskip.head_eq (by decide)
    rw [hnegated]
    generalize firstItems verbose (classStart verbose r) = d at hitems
    generalize firstItems verbose (classStart verbose r') = d' at hitems
    obtain ⟨items, hseam⟩ := hitems
    exact .mk _ hseam

theorem classTurn?_follows (p : ClassProgress) (h : Seam H r r') :
    Follows H (fun x t => (∃ q, x = .go q) ∧ ']' ∉ t) (classTurn? verbose p r)
      (classTurn? verbose p r') := by
  have hskip := h.skip verbose
  have hop := setOperator?_follows hskip
  unfold classTurn?
  generalize setOperator? (skip verbose r) = o at hop
  generalize setOperator? (skip verbose r') = o' at hop
  cases hop with
  | read op hseam => exact .read _ hseam
  | spent op hspent => cases hspent
  | failed =>
    generalize skip verbose r = u at hskip
    generalize skip verbose r' = u' at hskip
    simp only []
    split
    · obtain ⟨rest', rfl, hrest⟩ := hskip.of_cons
      exact .read _ hrest
    · next rest =>
      obtain ⟨rest', rfl, hrest⟩ := hskip.of_cons
      have hturn := nestedTurn_follows verbose p hrest
      change Follows H _ (some (nestedTurn verbose p rest)) (some (nestedTurn verbose p rest'))
      generalize nestedTurn verbose p rest = x at hturn
      generalize nestedTurn verbose p rest' = x' at hturn
      obtain ⟨x, hseam⟩ := hturn
      exact .read x hseam
    · next hclose hnested =>
      split
      · obtain ⟨rest, rfl, -⟩ := hskip.cons_of_ne (by decide)
        exact absurd rfl (hclose rest)
      · obtain ⟨rest, rfl, -⟩ := hskip.cons_of_ne (by decide)
        exact absurd rfl (hnested rest)
      · exact (classRange?_follows hskip).map (fun item => ClassTurn.go (p.push item))
          fun item _ hspent => ⟨⟨p.push item, rfl⟩, hspent⟩

/-- A class that is read without the parenthesis is read with it. -/
theorem ParsesClass.behind (h : ParsesClass verbose p r members t) (hseam : Seam H r r') :
    ∃ t', ParsesClass verbose p r' members t' ∧ Seam H t t' := by
  induction h generalizing r' with
  | @close p r t h =>
    obtain ⟨t', hturn, hend⟩ := (h ▸ classTurn?_follows p hseam).of_some
    exact ⟨t', .close hturn, hend⟩
  | @go p q r t u members h _ ih =>
    obtain ⟨t', hturn, hrest⟩ := (h ▸ classTurn?_follows p hseam).of_some
    obtain ⟨u', hread, hend⟩ := ih hrest
    exact ⟨u', .go hturn hread, hend⟩
  | @enter p r t u w negated items inner members h _ _ ihn ih =>
    obtain ⟨t', hturn, hrest⟩ := (h ▸ classTurn?_follows p hseam).of_some
    obtain ⟨u', hnested, hafter⟩ := ihn hrest
    obtain ⟨w', hread, hend⟩ := ih hafter
    exact ⟨w', .enter hturn hnested hread, hend⟩

/-- A class that is read with the parenthesis is read without it. -/
theorem ParsesClass.without (h : ParsesClass verbose p r' members t') (hseam : Seam H r r') :
    ∃ t, ParsesClass verbose p r members t ∧ Seam H t t' := by
  induction h generalizing r with
  | @close p r' t' h =>
    rcases (h ▸ classTurn?_follows p hseam).of_some' with ⟨t, hturn, hend⟩ | ⟨⟨q, hgo⟩, -⟩
    · exact ⟨t, .close hturn, hend⟩
    · cases hgo
  | @go p q r' t' u' members h hread ih =>
    rcases (h ▸ classTurn?_follows p hseam).of_some' with ⟨t, hturn, hrest⟩ | ⟨-, hspent⟩
    · obtain ⟨u, hread, hend⟩ := ih hrest
      exact ⟨u, .go hturn hread, hend⟩
    · exact absurd hread.bracket_mem hspent
  | @enter p r' t' u' w' negated items inner members h _ _ ihn ih =>
    rcases (h ▸ classTurn?_follows p hseam).of_some' with ⟨t, hturn, hrest⟩ | ⟨⟨q, hgo⟩, -⟩
    · obtain ⟨u, hnested, hafter⟩ := ihn hrest
      obtain ⟨w, hread, hend⟩ := ih hafter
      exact ⟨w, .enter hturn hnested hread, hend⟩
    · cases hgo

theorem bracketed?_follows (verbose : Bool) (h : Seam H r r') :
    FollowsOn H (bracketed? verbose r) (bracketed? verbose r') := by
  have hnegated : classNegated verbose r' = classNegated verbose r :=
    (h.skip verbose).head_eq (by decide)
  have hitems := (h.classStart verbose).firstItems verbose
  cases hread : bracketed? verbose r with
  | some x =>
    obtain ⟨a, t⟩ := x
    obtain ⟨members, rfl, hclass⟩ := bracketed?_eq_some_iff.mp hread
    obtain ⟨t', hclass', hend⟩ := hclass.behind hitems.seam
    have hread' : bracketed? verbose r' = some (.bracket (classNegated verbose r) members, t') := by
      rw [bracketed?_eq_some_iff, hnegated, ← hitems.result]
      exact ⟨members, rfl, hclass'⟩
    rw [hread']
    exact .read _ hend
  | none =>
    cases hread' : bracketed? verbose r' with
    | none => exact .failed
    | some x =>
      obtain ⟨a, t'⟩ := x
      obtain ⟨members, rfl, hclass⟩ := bracketed?_eq_some_iff.mp hread'
      rw [← hitems.result] at hclass
      obtain ⟨t, hclass, -⟩ := hclass.without hitems.seam
      rw [bracketed?_eq_some_iff.mpr ⟨members, rfl, hclass⟩] at hread
      cases hread

end TableLexer.Regex
